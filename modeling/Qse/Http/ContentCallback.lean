import Qse.Http.Re

/-!
# Content callbacks over successive messages

An object is used for one message after another. A session keeps the number of the message and what
has happened so far.
-/

open List

namespace Qse.Http

/-- What happens to the message `msg`. -/
inductive Event where
  | set (msg : ℕ) (c : Concb)
  | added (msg : ℕ) (piece : List UInt8)
  | called (msg : ℕ) (call : Call)
deriving DecidableEq

structure Session where
  re : Re
  msg : ℕ
  log : List Event

def Session.init : Session := ⟨Re.init, 0, []⟩

inductive Op where
  | setconcb (c : Option Concb)
  | addcontent (piece : List UInt8) (ok : Bool)
  | completecontent
  | discardcontent
  | clear

def calls (msg : ℕ) (call : Option Call) : List Event := call.toList.map (.called msg)

def Op.exec (s : Session) : Op → Session
  | .setconcb c => { s with
      re := s.re.setconcb c
      log := s.log ++ c.toList.map (.set s.msg) }
  | .addcontent piece ok =>
    let (_, re, call) := s.re.addcontent piece ok
    let added := if s.re.pending then [.added s.msg piece] else []
    { s with re := re, log := s.log ++ added ++ calls s.msg call }
  | .completecontent =>
    let (re, call) := s.re.completecontent
    { s with re := re, log := s.log ++ calls s.msg call }
  | .discardcontent =>
    let (re, call) := s.re.discardcontent
    { s with re := re, log := s.log ++ calls s.msg call }
  | .clear =>
    let (re, call) := s.re.clear
    ⟨re, s.msg + 1, s.log ++ calls s.msg call⟩

def Session.Over (s : Session) (msg : ℕ) : Prop :=
  msg < s.msg ∨ (msg = s.msg ∧ s.re.pending = false)

/-- A callback is called for messages during which it was set and with what was added to
them, and for no message again once it has got the end of its content. -/
structure Orderly (log : List Event) : Prop where
  within : ∀ pre post msg call, log = pre ++ .called msg call :: post → .set msg call.concb ∈ pre
  piece : ∀ pre post msg c p, log = pre ++ .called msg ⟨c, some p⟩ :: post → .added msg p ∈ pre
  last : ∀ pre post msg c p, log = pre ++ .called msg ⟨c, p⟩ :: post → .called msg ⟨c, none⟩ ∉ pre

/-- Moreover a callback gets the end of the content of each message during which it was
set, once, as soon as that message is over. -/
structure Served (s : Session) : Prop where
  orderly : Orderly s.log
  once : ∀ msg c, .set msg c ∈ s.log → s.Over msg → s.log.count (.called msg ⟨c, none⟩) = 1

def Session.Own (s : Session) : Prop := ∀ c ∈ s.re.concb, .set s.msg c ∈ s.log

instance (s : Session) : Decidable s.Own :=
  inferInstanceAs (Decidable (∀ c ∈ s.re.concb, .set s.msg c ∈ s.log))

/-- The condition on a call: a callback is set for a message that is pending and stays
set until it is over, and one that was set for an earlier message is not in the way when
the message gets content or ends. -/
def Op.Ok (s : Session) : Op → Prop
  | .setconcb new =>
    if s.re.pending then
      ∀ c ∈ s.re.concb, new = some c ∨ .set s.msg c ∉ s.log
    else ∀ c ∈ new, .set s.msg c ∈ s.log
  | _ => s.re.pending = true → s.Own

instance (op : Op) (s : Session) : Decidable (op.Ok s) := by
  cases op <;> unfold Op.Ok <;> infer_instance

inductive SessionRuns (s : Session) : List Op → Session → Prop where
  | init : SessionRuns s [] s
  | step {t : Session} {ops : List Op} (h : SessionRuns s ops t) (op : Op) (hok : op.Ok t) :
      SessionRuns s (ops ++ [op]) (op.exec t)

theorem append_singleton_eq_split {α : Type} {l pre post : List α} {x e : α}
    (h : l ++ [x] = pre ++ e :: post) :
    (post = [] ∧ x = e ∧ l = pre) ∨ ∃ post', post = post' ++ [x] ∧ l = pre ++ e :: post' := by
  rcases eq_nil_or_concat' post with rfl | ⟨post', y, rfl⟩
  · obtain ⟨rfl, hx⟩ := append_inj' h rfl
    exact .inl ⟨rfl, singleton_inj.mp hx, rfl⟩
  · rw [← cons_append, ← append_assoc] at h
    obtain ⟨rfl, hx⟩ := append_inj' h rfl
    rw [singleton_inj.mp hx]
    exact .inr ⟨post', rfl, rfl⟩

/-- What holds between two calls, besides what callbacks are promised: while the message
is pending, the only callback set during it is the one that is set, and it has not got the
end of the content. -/
structure Tidy (s : Session) : Prop where
  served : Served s
  setBound : ∀ msg c, .set msg c ∈ s.log → msg ≤ s.msg
  current : s.re.pending = true → ∀ c, .set s.msg c ∈ s.log → s.re.concb = some c
  unended : s.re.pending = true → ∀ c, .called s.msg ⟨c, none⟩ ∉ s.log

theorem tidy_init : Tidy Session.init := by
  refine ⟨⟨⟨?_, ?_, ?_⟩, ?_⟩, ?_, ?_, ?_⟩ <;> simp [Session.init]

theorem Orderly.snoc {log : List Event} (h : Orderly log) (e : Event)
    (hcall : ∀ msg call, e = .called msg call → .set msg call.concb ∈ log ∧
      (∀ p, call.piece = some p → .added msg p ∈ log) ∧
      .called msg ⟨call.concb, none⟩ ∉ log) : Orderly (log ++ [e]) := by
  refine ⟨fun pre post msg call hlog => ?_, fun pre post msg c p hlog => ?_,
    fun pre post msg c p hlog => ?_⟩
  · rcases append_singleton_eq_split hlog with ⟨-, he, rfl⟩ | ⟨post', -, hlog'⟩
    · exact (hcall msg call he).1
    · exact h.within pre post' msg call hlog'
  · rcases append_singleton_eq_split hlog with ⟨-, he, rfl⟩ | ⟨post', -, hlog'⟩
    · exact (hcall msg ⟨c, some p⟩ he).2.1 p rfl
    · exact h.piece pre post' msg c p hlog'
  · rcases append_singleton_eq_split hlog with ⟨-, he, rfl⟩ | ⟨post', -, hlog'⟩
    · exact (hcall msg ⟨c, p⟩ he).2.2
    · exact h.last pre post' msg c p hlog'

variable {msg : ℕ} {s : Session}

theorem mem_of_calls {e : Event} {call : Option Call} (h : e ∈ calls msg call) :
    ∃ c, call = some c ∧ e = .called msg c := by
  cases call with
  | none => cases h
  | some c => exact ⟨c, rfl, mem_singleton.mp h⟩

theorem set_mem_append_calls {log : List Event} {m : ℕ} {c : Concb} {call : Option Call} :
    .set m c ∈ log ++ calls msg call ↔ .set m c ∈ log := by
  refine ⟨fun h => ?_, fun h => mem_append_left _ h⟩
  rcases mem_append.mp h with h | h
  · exact h
  · obtain ⟨call, -, he⟩ := mem_of_calls h
    cases he

section End

variable {s : Session} (h : Tidy s) (hpend : s.re.pending = true)

include h hpend

theorem Tidy.orderly_end (hown : s.Own) : Orderly (s.log ++ calls s.msg s.re.endOfContent) := by
  cases hc : s.re.concb with
  | none => simpa [Re.endOfContent, hc, calls] using h.served.orderly
  | some c =>
    have hcalls : calls s.msg s.re.endOfContent = [.called s.msg ⟨c, none⟩] := by
      simp [Re.endOfContent, hc, calls]
    rw [hcalls]
    refine h.served.orderly.snoc _ fun msg call he => ?_
    cases he
    exact ⟨hown c hc, by simp, h.unended hpend c⟩

theorem Tidy.once_end {msg : ℕ} {c : Concb} (hset : .set msg c ∈ s.log) :
    (s.log ++ calls s.msg s.re.endOfContent).count (.called msg ⟨c, none⟩) = 1 := by
  rw [count_append]
  rcases Nat.lt_or_eq_of_le (h.setBound msg c hset) with hlt | rfl
  · have hzero : (calls s.msg s.re.endOfContent).count (.called msg ⟨c, none⟩) = 0 := by
      refine count_eq_zero.mpr fun hmem => ?_
      obtain ⟨call, -, he⟩ := mem_of_calls hmem
      cases he
      exact Nat.lt_irrefl _ hlt
    rw [hzero, h.served.once msg c hset (.inl hlt)]
  · have hcalls : calls s.msg s.re.endOfContent = [.called s.msg ⟨c, none⟩] := by
      simp [Re.endOfContent, h.current hpend c hset, calls]
    rw [hcalls, count_eq_zero.mpr (h.unended hpend c), count_singleton_self]

end End

theorem Tidy.setconcb (h : Tidy s) {new : Option Concb}
    (hok : (Op.setconcb new).Ok s) : Tidy ((Op.setconcb new).exec s) := by
  have hpending : (s.re.setconcb new).pending = s.re.pending := rfl
  have hcalled : ∀ msg call, Event.called msg call ∈ s.log ++ new.toList.map (.set s.msg) →
      Event.called msg call ∈ s.log := by
    intro msg call hmem
    rcases mem_append.mp hmem with hmem | hmem
    · exact hmem
    · obtain ⟨c, -, he⟩ := mem_map.mp hmem
      cases he
  have hset : ∀ msg c, Event.set msg c ∈ s.log ++ new.toList.map (.set s.msg) →
      Event.set msg c ∈ s.log ∨ (msg = s.msg ∧ new = some c) := by
    intro msg c hmem
    rcases mem_append.mp hmem with hmem | hmem
    · exact .inl hmem
    · obtain ⟨c', hc', he⟩ := mem_map.mp hmem
      cases he
      exact .inr ⟨rfl, Option.mem_toList.mp hc'⟩
  refine ⟨⟨?_, fun msg c hmem hover => ?_⟩, fun msg c hmem => ?_, fun hpend c hmem => ?_,
    fun hpend c hmem => h.unended hpend c (hcalled _ _ hmem)⟩
  · cases new with
    | none => simpa [Op.exec] using h.served.orderly
    | some c => exact h.served.orderly.snoc _ fun msg call he => by cases he
  · have hcount : (s.log ++ new.toList.map (Event.set s.msg)).count
        (Event.called msg ⟨c, none⟩) = s.log.count (.called msg ⟨c, none⟩) := by
      rw [count_append, Nat.add_eq_left]
      refine count_eq_zero.mpr fun hmem => ?_
      obtain ⟨c', -, he⟩ := mem_map.mp hmem
      cases he
    refine hcount.trans ?_
    rcases hset msg c hmem with hmem | ⟨rfl, hnew⟩
    · exact h.served.once msg c hmem hover
    · rcases hover with hlt | ⟨-, hover⟩
      · exact absurd hlt (Nat.lt_irrefl _)
      · have hover' : s.re.pending = false := hover
        rw [Op.Ok, hover'] at hok
        exact h.served.once _ c (hok c hnew) (.inr ⟨rfl, hover'⟩)
  · rcases hset msg c hmem with hmem | ⟨rfl, -⟩
    · exact h.setBound msg c hmem
    · exact Nat.le_refl _
  · have hpend' : s.re.pending = true := hpend
    rw [Op.Ok, hpend'] at hok
    rcases hset _ c hmem with hmem | ⟨-, hnew⟩
    · rcases hok c (h.current hpend' c hmem) with hnew | hnot
      · exact hnew
      · exact absurd hmem hnot
    · exact hnew

theorem Orderly.set_mem {log : List Event} (h : Orderly log) {call : Call}
    (hmem : .called msg call ∈ log) : .set msg call.concb ∈ log := by
  obtain ⟨pre, post, rfl⟩ := append_of_mem hmem
  exact mem_append_left _ (h.within pre post msg call rfl)

theorem Tidy.addcontent (h : Tidy s) {piece : List UInt8} {ok : Bool}
    (hok : (Op.addcontent piece ok).Ok s) : Tidy ((Op.addcontent piece ok).exec s) := by
  cases hpend : s.re.pending with
  | false => simpa [Op.exec, Re.addcontent, hpend, calls] using h
  | true =>
    have hadded : Orderly (s.log ++ [.added s.msg piece]) :=
      h.served.orderly.snoc _ fun msg call he => by cases he
    have hre : (s.re.addcontent piece ok).2.1.pending = true ∧
        (s.re.addcontent piece ok).2.1.concb = s.re.concb := by
      rw [Re.addcontent, if_pos hpend]
      cases hc : s.re.concb <;> cases ok <;> simp [hc, hpend]
      simpa [Re.pending] using hpend
    have hcall : (s.re.addcontent piece ok).2.2 = s.re.concb.map fun c => ⟨c, some piece⟩ := by
      rw [Re.addcontent, if_pos hpend]
      cases s.re.concb <;> cases ok <;> rfl
    have hlog : ((Op.addcontent piece ok).exec s).log = s.log ++ [.added s.msg piece] ++
        calls s.msg (s.re.concb.map fun c => ⟨c, some piece⟩) := by
      simp [Op.exec, hpend, hcall]
    have hends : ∀ msg c, Event.called msg ⟨c, none⟩ ∈ ((Op.addcontent piece ok).exec s).log →
        Event.called msg ⟨c, none⟩ ∈ s.log := by
      intro msg c hmem
      rw [hlog] at hmem
      rcases mem_append.mp hmem with hmem | hmem
      · simpa using hmem
      · obtain ⟨call, hcall', he⟩ := mem_of_calls hmem
        cases he
        simp at hcall'
    have hsets : ∀ msg c, Event.set msg c ∈ ((Op.addcontent piece ok).exec s).log →
        Event.set msg c ∈ s.log := by
      intro msg c hmem
      rw [hlog, set_mem_append_calls] at hmem
      simpa using hmem
    refine ⟨⟨?_, fun msg c hmem hover => ?_⟩,
      fun msg c hmem => h.setBound msg c (hsets msg c hmem), fun _ c hmem => ?_,
      fun _ c hmem => h.unended hpend c (hends _ c hmem)⟩
    · rw [hlog]
      cases hc : s.re.concb with
      | none => simpa [calls] using hadded
      | some c =>
        refine hadded.snoc _ fun msg call he => ?_
        cases he
        refine ⟨mem_append_left _ (hok hpend c hc), fun p hp => ?_, fun hmem => ?_⟩
        · cases hp
          simp
        · exact h.unended hpend c (by simpa using hmem)
    · have hlt : msg < s.msg := by
        rcases hover with hlt | ⟨-, hover⟩
        · exact hlt
        · rw [show ((Op.addcontent piece ok).exec s).re.pending = true from hre.1] at hover
          cases hover
      have honce := h.served.once msg c (hsets msg c hmem) (.inl hlt)
      rw [hlog, append_assoc, count_append, honce, Nat.add_eq_left]
      refine count_eq_zero.mpr fun hmem => ?_
      rcases mem_append.mp hmem with hmem | hmem
      · simp at hmem
      · obtain ⟨call, hcall', he⟩ := mem_of_calls hmem
        cases he
        simp at hcall'
    · rw [show ((Op.addcontent piece ok).exec s).re.concb = s.re.concb from hre.2]
      exact h.current hpend c (hsets _ c hmem)

theorem Tidy.ended {s t : Session} (h : Tidy s) (hown : s.re.pending = true → s.Own)
    (hlog : t.log = s.log ++ if s.re.pending then calls s.msg s.re.endOfContent else [])
    (ht : (t.msg = s.msg ∧ t.re.pending = false) ∨ t.msg = s.msg + 1) : Tidy t := by
  have hsets : ∀ msg c, Event.set msg c ∈ t.log → Event.set msg c ∈ s.log := by
    intro msg c hmem
    rw [hlog] at hmem
    split at hmem
    · exact set_mem_append_calls.mp hmem
    · simpa using hmem
  have horderly : Orderly t.log := by
    rw [hlog]
    split
    · exact h.orderly_end ‹_› (hown ‹_›)
    · simpa using h.served.orderly
  have hnext : t.re.pending = true → ∀ c, Event.set t.msg c ∉ t.log := by
    intro hpend c hmem
    rcases ht with ⟨-, hover⟩ | hmsg
    · rw [hpend] at hover
      cases hover
    · have hbound := h.setBound _ c (hsets _ c hmem)
      omega
  refine ⟨⟨horderly, fun msg c hmem hover => ?_⟩, fun msg c hmem => ?_,
    fun hpend c hmem => absurd hmem (hnext hpend c),
    fun hpend c hmem => hnext hpend c (horderly.set_mem hmem)⟩
  · have hset := hsets msg c hmem
    rw [hlog]
    split
    · exact h.once_end ‹_› hset
    have hdone : s.re.pending = false := by simpa using ‹¬s.re.pending = true›
    rw [append_nil]
    refine h.served.once msg c hset ?_
    rcases Nat.lt_or_eq_of_le (h.setBound msg c hset) with hlt | heq
    · exact .inl hlt
    · exact .inr ⟨heq, hdone⟩
  · have hbound := h.setBound msg c (hsets msg c hmem)
    rcases ht with ⟨hmsg, -⟩ | hmsg <;> omega

theorem Tidy.exec (h : Tidy s) {op : Op} (hok : op.Ok s) : Tidy (op.exec s) := by
  cases op with
  | setconcb c => exact h.setconcb hok
  | addcontent piece ok => exact h.addcontent hok
  | completecontent =>
    refine h.ended hok ?_ (.inl ⟨rfl, ?_⟩)
    · cases hpend : s.re.pending <;> simp [Op.exec, Re.completecontent, hpend, calls]
    · cases hpend : s.re.pending <;> simp [Op.exec, Re.completecontent, hpend]
      simp [Re.pending]
  | discardcontent =>
    refine h.ended hok ?_ (.inl ⟨rfl, ?_⟩)
    · cases hpend : s.re.pending <;> simp [Op.exec, Re.discardcontent, hpend, calls]
    · cases hpend : s.re.pending <;> simp [Op.exec, Re.discardcontent, hpend]
      simp [Re.pending]
  | clear =>
    refine h.ended hok ?_ (.inr rfl)
    cases hpend : s.re.pending <;> simp [Op.exec, Re.clear, hpend, calls]

/-- If each callback is set for a pending message and neither replaced before that message
is over nor in the way of a later one, every callback is served as promised. -/
theorem served_of_runs {ops : List Op} {t : Session} (h : SessionRuns Session.init ops t) :
    Served t := by
  suffices htidy : Tidy t from htidy.served
  induction h with
  | init => exact tidy_init
  | step _ op hok ih => exact ih.exec hok

/-- A callback that keeps its content, for two messages. -/
theorem served_of_runs_two : ∃ t, SessionRuns Session.init [.setconcb (some ⟨1, 1⟩),
      .addcontent [72, 105] true, .completecontent, .clear, .setconcb (some ⟨1, 2⟩),
      .discardcontent] t ∧
    t.log = [.set 0 ⟨1, 1⟩, .added 0 [72, 105], .called 0 ⟨⟨1, 1⟩, some [72, 105]⟩,
      .called 0 ⟨⟨1, 1⟩, none⟩, .set 1 ⟨1, 2⟩, .called 1 ⟨⟨1, 2⟩, none⟩] ∧ Served t := by
  have h0 : SessionRuns Session.init [] Session.init := .init
  have h1 := h0.step (.setconcb (some ⟨1, 1⟩)) (by decide)
  have h2 := h1.step (.addcontent [72, 105] true) (by decide)
  have h3 := h2.step .completecontent (by decide)
  have h4 := h3.step .clear (by decide)
  have h5 := h4.step (.setconcb (some ⟨1, 2⟩)) (by decide)
  have h6 := h5.step .discardcontent (by decide)
  exact ⟨_, h6, by decide, served_of_runs h6⟩

/-- A callback that is still set when a completed message is cleared gets the content of
the next message. -/
theorem not_served_next_message : ¬∀ ops : List Op,
    Served (ops.foldl (fun s op => op.exec s) Session.init) := by
  intro hclaim
  have h := hclaim [.setconcb (some ⟨1, 1⟩), .completecontent, .clear, .addcontent [72] true]
  have hset := h.orderly.set_mem (show Event.called 1 ⟨⟨1, 1⟩, some [72]⟩ ∈ _ from by decide)
  revert hset
  decide

end Qse.Http
