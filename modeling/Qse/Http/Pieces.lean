import Qse.Http.Jumps

/-!
# Feeding in pieces

However a stream is cut into pieces, the reader comes to the same, unless a chunk length is
cut behind a space.
-/

open List

namespace Qse.Http

/-! ## The reader between two calls -/

/-- The reader takes what it is fed as messages whose ends it can find. -/
structure Quiet (opts : Options) (htrd : Htrd) : Prop where
  option : htrd.option = opts
  suspended : htrd.suspended = false
  dummified : htrd.dummified = false
  untilClose : htrd.untilClose = false

def Ready (htrd : Htrd) : Label → Prop
  | .top => htrd.need = 0 ∧ htrd.chunk.phase = .done ∧ htrd.clean = false
  | .dechunkStart => htrd.need = 0
  | .dechunkResume => htrd.need = 0 ∧ htrd.chunk.phase = .len ∧
      (htrd.chunk.count = 0 → htrd.chunk.len = 0)
  | .dechunkGetTrailers => htrd.need = 0 ∧ htrd.chunk.phase = .trailers
  | .contentResume => 0 < htrd.need
  | .dechunkCrlf => htrd.need = 0 ∧ htrd.chunk.phase = .crlf

/-- `htrd->clean = 0` unless the call goes on with a body. -/
def Htrd.entered (htrd : Htrd) : Htrd :=
  if htrd.resumeAt = .top then { htrd with clean := false } else htrd

theorem entered_resumeAt (htrd : Htrd) : htrd.entered.resumeAt = htrd.resumeAt := by
  rw [Htrd.entered]
  split <;> rfl

structure Resting (opts : Options) (htrd : Htrd) : Prop where
  quiet : Quiet opts htrd
  ready : Ready htrd.entered htrd.resumeAt

variable {htrd : Htrd} {label : Label} {opts : Options} {a : List UInt8}

theorem Quiet.congr {htrd' : Htrd} (hquiet : Quiet opts htrd) (hoption : htrd'.option = htrd.option)
    (hsuspended : htrd'.suspended = htrd.suspended) (hdummified : htrd'.dummified = htrd.dummified)
    (huntil : htrd'.untilClose = htrd.untilClose) : Quiet opts htrd' :=
  ⟨hoption.trans hquiet.option, hsuspended.trans hquiet.suspended,
    hdummified.trans hquiet.dummified, huntil.trans hquiet.untilClose⟩

theorem resumeAt_of_ready (h : Ready htrd label)
    (hlabel : label ≠ .dechunkStart) : htrd.resumeAt = label := by
  cases label with
  | top | dechunkResume => simp [Htrd.resumeAt, h.1, h.2.1]
  | dechunkStart => exact absurd rfl hlabel
  | dechunkGetTrailers | dechunkCrlf => simp [Htrd.resumeAt, h.1, h.2]
  | contentResume => exact if_pos h

theorem entered_of_ready (h : Ready htrd label)
    (hlabel : label ≠ .dechunkStart) : htrd.entered = htrd := by
  rw [Htrd.entered, resumeAt_of_ready h hlabel]
  split
  · subst label
    rw [← h.2.2]
  · rfl

theorem whole_of_ready (h : Ready htrd label)
    (hlabel : label ≠ .dechunkStart ∧ label ≠ .dechunkResume) (a b : List UInt8) :
    ¬BrokenLength htrd a b :=
  fun hbroken => hlabel.2 ((resumeAt_of_ready h hlabel.1).symm.trans hbroken.1)

section Between

variable {opts : Options} {htrd : Htrd} (hquiet : Quiet opts htrd)

include hquiet

theorem resting_of_ready {label : Label} (h : Ready htrd label) (hlabel : label ≠ .dechunkStart) :
    Resting opts htrd := by
  refine ⟨hquiet, ?_⟩
  rw [entered_of_ready h hlabel, resumeAt_of_ready h hlabel]
  exact h

theorem feed_eq_run (req : List UInt8) : feed htrd req = run htrd.resumeAt htrd.entered req := by
  have hfeed : feed htrd req = if htrd.suspended then .error (.suspended, htrd)
      else if htrd.dummified then .ok (pushContent htrd req)
      else run htrd.entered.resumeAt htrd.entered req := rfl
  rw [hfeed, hquiet.suspended, hquiet.dummified, entered_resumeAt]
  rfl

theorem feed_of_ready {label : Label} (h : Ready htrd label) (hlabel : label ≠ .dechunkStart)
    (req : List UInt8) : feed htrd req = atLabel run htrd req label := by
  rw [feed_eq_run hquiet, entered_of_ready h hlabel, resumeAt_of_ready h hlabel, run_eq]
  rintro rfl
  exact h

end Between

/-- The reader has a body whose end it can find, whether or not it may read responses. -/
def Framable (opts : Options) (flags : Attrs) : Prop :=
  opts.response = true → flags.chunked = true ∨ flags.length = true

def HeadsFramable (opts : Options) (out out' : Outcome) : Prop :=
  ∀ flags ∈ headsOf out, flags ∈ headsOf out' → Framable opts flags

/-- What comes of a piece, and of the piece and `b` in one: the reader comes to rest and
goes on with `b`, unless a chunk length has been cut behind a space. -/
inductive Joins (opts : Options) (a b : List UInt8) : Outcome → Outcome → Prop where
  | failed {e : Errnum × Htrd} {out : Outcome} (hout : report out = report (.error e : Outcome)) :
      Joins opts a b (.error e) out
  | joined {htrd : Htrd} {out : Outcome} (hrest : Resting opts htrd)
      (hwhole : ¬BrokenLength htrd a b) (hout : report out = report (feed htrd b)) :
      Joins opts a b (.ok htrd) out
  | broken {htrd : Htrd} {out : Outcome} (hrest : Resting opts htrd)
      (hbroken : BrokenLength htrd a b)
      (hout : report out = .error (.badre, htrd.poked, htrd.heads)) : Joins opts a b (.ok htrd) out

section Join

variable {opts : Options} {a b : List UInt8} (hb : b ≠ []) {n : ℕ}
  (ih : ∀ label htrd p, label = .top ∨ label = .dechunkStart → p ≠ [] → p <:+ a →
    p.length ≤ n → Quiet opts htrd → Ready htrd label →
    HeadsFramable opts (run label htrd p) (run label htrd (p ++ b)) →
    Joins opts a b (run label htrd p) (run label htrd (p ++ b)))

include hb ih

def Htrd.finished (htrd : Htrd) : Htrd :=
  let htrd := { htrd with re := htrd.re.completecontent.1 }
  clearFeed { htrd with poked := htrd.poked ++ [htrd.re] }

variable {htrd : Htrd} {p : List UInt8}

omit hb ih in
theorem complete_eq (hquiet : Quiet opts htrd) (k : Label → Htrd → List UInt8 → Outcome)
    (p : List UInt8) :
    complete k htrd p =
      if p = [] then .ok htrd.finished else k .top { htrd.finished with clean := false } p := by
  have hsuspended : htrd.finished.suspended = false := hquiet.suspended
  have hdummified : htrd.finished.dummified = false := hquiet.dummified
  change (if p = [] then Except.ok htrd.finished
    else if htrd.finished.suspended then .error (.suspended, htrd.finished)
    else if htrd.finished.dummified then .ok (pushContent htrd.finished p)
    else k .top { htrd.finished with clean := false } p) = _
  rw [hsuspended, hdummified]
  rfl

omit hb ih in
theorem Quiet.finished (hquiet : Quiet opts htrd) : Quiet opts htrd.finished :=
  ⟨hquiet.option, hquiet.suspended, hquiet.dummified, rfl⟩

theorem complete_joins (hquiet : Quiet opts htrd) (hp : p <:+ a) (hn : p.length ≤ n) :
    HeadsFramable opts (complete run htrd p) (complete run htrd (p ++ b)) →
    Joins opts a b (complete run htrd p) (complete run htrd (p ++ b)) := by
  have hfinished := hquiet.finished
  have hready : Ready { htrd.finished with clean := false } .top := ⟨rfl, rfl, rfl⟩
  rw [complete_eq hquiet, complete_eq hquiet]
  by_cases hnil : p = []
  · subst hnil
    rw [if_pos rfl, nil_append, if_neg hb]
    refine fun _ => .joined ⟨hfinished, hready⟩ (fun hbroken => by cases hbroken.1) ?_
    rw [feed_eq_run hfinished]
    rfl
  · rw [if_neg hnil, if_neg (by simp [hnil])]
    exact ih .top _ p (.inl rfl) hnil hp hn
      ⟨hfinished.option, hfinished.suspended, hfinished.dummified, hfinished.untilClose⟩ hready

theorem dechunkCrlf_joins (hquiet : Quiet opts htrd) (hready : Ready htrd .dechunkCrlf)
    (hp : p <:+ a) (hn : p.length ≤ n + 1) :
    HeadsFramable opts (dechunkCrlf run htrd p) (dechunkCrlf run htrd (p ++ b)) →
    Joins opts a b (dechunkCrlf run htrd p) (dechunkCrlf run htrd (p ++ b)) := by
  have hsuffix := dropWhile_suffix isSpaceOctet (l := p)
  cases hdrop : p.dropWhile isSpaceOctet with
  | nil =>
    have hsame : dechunkCrlf run htrd (p ++ b) = dechunkCrlf run htrd b := by
      rw [dechunkCrlf, dechunkCrlf, dropWhile_append, hdrop]
      rfl
    rw [hsame, dechunkCrlf, hdrop]
    refine fun _ => .joined (resting_of_ready hquiet hready (by simp))
      (whole_of_ready hready (by simp) a b) ?_
    rw [feed_of_ready hquiet hready (by simp)]
    rfl
  | cons c rest =>
    have hdrop' : (p ++ b).dropWhile isSpaceOctet = c :: (rest ++ b) := by
      rw [dropWhile_append, hdrop]
      rfl
    rw [hdrop] at hsuffix
    have hrest : rest <:+ a := ((suffix_cons c rest).trans hsuffix).trans hp
    have hlen : rest.length ≤ n := by
      have hle := hsuffix.length_le
      rw [length_cons] at hle
      omega
    rw [dechunkCrlf, hdrop, dechunkCrlf, hdrop']
    simp only
    by_cases hlf : c = mt '\n'
    · rw [if_pos hlf]
      rw [if_pos hlf]
      by_cases hnil : rest = []
      · subst hnil
        have hstart : Ready { htrd with chunk := ⟨0, 0, .len⟩ } .dechunkResume :=
          ⟨hready.1, rfl, fun _ => rfl⟩
        have hquiet' : Quiet opts { htrd with chunk := ⟨0, 0, .len⟩ } :=
          hquiet.congr rfl rfl rfl rfl
        rw [if_neg (by simp), if_pos (by simpa using hb)]
        refine fun _ => .joined (resting_of_ready hquiet' hstart (by simp))
          (fun hbroken => lt_irrefl 0 hbroken.2.1) ?_
        rw [feed_of_ready hquiet' hstart (by simp), nil_append, run_eq (by simp)]
        rfl
      · rw [if_pos hnil, if_pos (by simp [hnil])]
        exact ih .dechunkStart htrd rest (.inr rfl) hnil hrest hlen hquiet hready.1
    · rw [if_neg hlf]
      rw [if_neg hlf]
      exact fun _ => .failed rfl

theorem afterContent_joins (hquiet : Quiet opts htrd) (hneed : htrd.need = 0) (hp : p <:+ a)
    (hn : p.length ≤ n) :
    HeadsFramable opts (afterContent run htrd p) (afterContent run htrd (p ++ b)) →
    Joins opts a b (afterContent run htrd p) (afterContent run htrd (p ++ b)) := by
  have hcrlf : Quiet opts { htrd with chunk := { htrd.chunk with phase := .crlf } } :=
    hquiet.congr rfl rfl rfl rfl
  rw [afterContent, afterContent]
  split
  · exact dechunkCrlf_joins hb ih hcrlf ⟨hneed, rfl⟩ hp (Nat.le_succ_of_le hn)
  · exact complete_joins hb ih hquiet hp hn

omit hb ih in
theorem pushContent_append (htrd : Htrd) (p q : List UInt8) :
    pushContent (pushContent htrd p) q = pushContent htrd (p ++ q) := by
  have hadd : ∀ re : Re, ((re.addcontent p true).2.1.addcontent q true).2.1 =
      (re.addcontent (p ++ q) true).2.1 := by
    intro re
    cases hcompleted : re.completed <;> cases hdiscarded : re.discarded <;>
      cases hconcb : re.concb <;>
      simp [Re.addcontent, Re.pending, hcompleted, hdiscarded, hconcb]
  rw [pushContent, pushContent, pushContent, ← hadd]

omit hb ih in
theorem contentResume_of_lt (k : Label → Htrd → List UInt8 → Outcome)
    (huntil : htrd.untilClose = false) (hne : p ≠ []) (hlt : p.length < htrd.need) :
    contentResume k htrd p = .ok { pushContent htrd p with need := htrd.need - p.length } := by
  have hpos : 0 < p.length := length_pos_iff.mpr hne
  have huntil' : (pushContent htrd p).untilClose = false := huntil
  have hneed : (pushContent htrd p).need = htrd.need := rfl
  rw [contentResume]
  simp only [hpos.ne', hlt, huntil', hneed, if_false, if_true, Bool.false_eq_true]

omit hb ih in
theorem contentResume_of_ge (k : Label → Htrd → List UInt8 → Outcome)
    (huntil : htrd.untilClose = false) (hne : p ≠ []) (hge : htrd.need ≤ p.length) :
    contentResume k htrd p =
      afterContent k { pushContent htrd (p.take htrd.need) with need := 0 }
        (p.drop htrd.need) := by
  have hpos : 0 < p.length := length_pos_iff.mpr hne
  rw [contentResume]
  simp only [hpos.ne', hge.not_gt, huntil, if_false, Bool.false_eq_true]

omit ih in
theorem contentResume_append (k : Label → Htrd → List UInt8 → Outcome)
    (huntil : htrd.untilClose = false) (hlt : p.length < htrd.need) :
    contentResume k htrd (p ++ b) =
      contentResume k { pushContent htrd p with need := htrd.need - p.length } b := by
  have hne : p ++ b ≠ [] := by simp [hb]
  have huntil' : ({ pushContent htrd p with need := htrd.need - p.length } : Htrd).untilClose =
    false := huntil
  have hpush : ∀ q need, ({ pushContent { pushContent htrd p with need := htrd.need - p.length } q
      with need := need } : Htrd) = { pushContent htrd (p ++ q) with need := need } := by
    intro q need
    rw [← pushContent_append]
    rfl
  rcases lt_or_ge b.length (htrd.need - p.length) with hfew | hmany
  · have hfew' : (p ++ b).length < htrd.need := by
      rw [length_append]
      omega
    rw [contentResume_of_lt k huntil hne hfew', contentResume_of_lt k huntil' hb hfew, hpush,
      length_append, Nat.sub_sub]
  · have hmany' : htrd.need ≤ (p ++ b).length := by
      rw [length_append]
      omega
    rw [contentResume_of_ge k huntil hne hmany', contentResume_of_ge k huntil' hb hmany, hpush,
      take_append, drop_append, take_of_length_le hlt.le,
      drop_of_length_le hlt.le, nil_append]

theorem contentResume_joins (hquiet : Quiet opts htrd) (hready : Ready htrd .contentResume)
    (hp : p <:+ a) (hn : p.length ≤ n + 1) :
    HeadsFramable opts (contentResume run htrd p) (contentResume run htrd (p ++ b)) →
    Joins opts a b (contentResume run htrd p) (contentResume run htrd (p ++ b)) := by
  have hneed : 0 < htrd.need := hready
  by_cases hnil : p = []
  · subst hnil
    refine fun _ => .joined (resting_of_ready hquiet hready (by simp))
      (whole_of_ready hready (by simp) a b) ?_
    rw [feed_of_ready hquiet hready (by simp)]
    rfl
  rcases lt_or_ge p.length htrd.need with hlt | hge
  · have hquiet' : Quiet opts { pushContent htrd p with need := htrd.need - p.length } :=
      hquiet.congr rfl rfl rfl rfl
    have hready' : Ready { pushContent htrd p with need := htrd.need - p.length }
        .contentResume := Nat.sub_pos_of_lt hlt
    rw [contentResume_append hb run hquiet.untilClose hlt,
      contentResume_of_lt run hquiet.untilClose hnil hlt]
    refine fun _ => .joined (resting_of_ready hquiet' hready' (by simp))
      (whole_of_ready hready' (by simp) a b) ?_
    rw [feed_of_ready hquiet' hready' (by simp)]
    rfl
  · have hquiet' : Quiet opts { pushContent htrd (p.take htrd.need) with need := 0 } :=
      hquiet.congr rfl rfl rfl rfl
    have hmany : htrd.need ≤ (p ++ b).length := by
      rw [length_append]
      omega
    rw [contentResume_of_ge run hquiet.untilClose hnil hge]
    rw [contentResume_of_ge run hquiet.untilClose (by simp [hnil]) hmany,
      take_append_of_le_length hge, drop_append_of_le_length hge]
    refine afterContent_joins hb ih hquiet' rfl ((drop_suffix _ p).trans hp) ?_
    rw [length_drop]
    omega

theorem readContent_joins (hquiet : Quiet opts htrd) (hp : p <:+ a) (hn : p.length ≤ n) :
    HeadsFramable opts (readContent run htrd p) (readContent run htrd (p ++ b)) →
    Joins opts a b (readContent run htrd p) (readContent run htrd (p ++ b)) := by
  rw [readContent, readContent]
  split
  · exact contentResume_joins hb ih hquiet ‹_› hp (Nat.le_succ_of_le hn)
  · exact afterContent_joins hb ih hquiet (by omega) hp hn

def afterTrailers (k : Label → Htrd → List UInt8 → Outcome) :
    Except (Errnum × Htrd) (Htrd × List UInt8) → Outcome
  | .error e => .error e
  | .ok (htrd, ptr) =>
    if htrd.chunk.phase = .trailers then .ok htrd else readContent k htrd ptr

omit hb ih in
theorem report_afterTrailers {k : Label → Htrd → List UInt8 → Outcome}
    {out out' : Except (Errnum × Htrd) (Htrd × List UInt8)} (h : report out = report out') :
    report (afterTrailers k out) = report (afterTrailers k out') := by
  cases out with
  | error e =>
    cases out' with
    | error e' => simpa [report, afterTrailers] using h
    | ok read => cases h
  | ok read =>
    cases out' with
    | error e' => cases h
    | ok read' =>
      cases h
      rfl

omit hb ih in
theorem SameButTrailers.quiet {htrd' : Htrd} (h : SameButTrailers htrd htrd')
    (hquiet : Quiet opts htrd) : Quiet opts htrd' :=
  hquiet.congr h.option h.suspended h.dummified h.untilClose

theorem dechunkGetTrailers_joins (hquiet : Quiet opts htrd)
    (hready : Ready htrd .dechunkGetTrailers) (hp : p <:+ a) (hn : p.length ≤ n + 1) :
    HeadsFramable opts (dechunkGetTrailers run htrd p) (dechunkGetTrailers run htrd (p ++ b)) →
    Joins opts a b (dechunkGetTrailers run htrd p) (dechunkGetTrailers run htrd (p ++ b)) := by
  have heq : ∀ q htrd, dechunkGetTrailers run htrd q =
      afterTrailers run (getTrailingHeaders htrd [] q) := fun _ _ => rfl
  have hjoin := getTrailingHeaders_join htrd [] p b
  rw [heq, heq]
  generalize getTrailingHeaders htrd [] p = out at hjoin ⊢
  generalize getTrailingHeaders htrd [] (p ++ b) = out' at hjoin ⊢
  cases hjoin with
  | failed e => exact fun _ => .failed rfl
  | @ended htrd' rest hsame hphase hlt hrest =>
    have hnot : ¬htrd'.chunk.phase = .trailers := by simp [hphase]
    rw [afterTrailers, if_neg hnot, afterTrailers, if_neg hnot]
    exact readContent_joins hb ih (hsame.quiet hquiet) (hrest.trans hp) (by omega)
  | @unended htrd' out' hsame hphase hout =>
    have hquiet' := hsame.quiet hquiet
    have hready' : Ready htrd' .dechunkGetTrailers :=
      ⟨hsame.need.trans hready.1, hphase.trans hready.2⟩
    rw [afterTrailers, if_pos hready'.2]
    refine fun _ => .joined (resting_of_ready hquiet' hready' (by simp))
      (whole_of_ready hready' (by simp) a b) ?_
    rw [feed_of_ready hquiet' hready' (by simp)]
    exact report_afterTrailers hout

def afterLength (k : Label → Htrd → List UInt8 → Outcome) :
    Except (Errnum × Htrd) (Htrd × List UInt8) → Outcome
  | .error e => .error e
  | .ok (htrd, ptr) =>
    if htrd.chunk.phase = .len then .ok htrd
    else if htrd.chunk.phase = .trailers then dechunkGetTrailers k { htrd with crlf := 2 } ptr
    else readContent k htrd ptr

omit hb ih in
theorem brokenLength_suffix (hne : p ≠ []) (hp : p <:+ a) :
    BrokenLength htrd a b ↔ BrokenLength htrd p b := by
  obtain ⟨pre, rfl⟩ := hp
  rw [BrokenLength, BrokenLength, getLast?_append_of_ne_nil _ hne]

theorem dechunkResume_joins (hquiet : Quiet opts htrd) (hready : Ready htrd .dechunkResume)
    (hne : p ≠ []) (hp : p <:+ a) (hn : p.length ≤ n + 1) :
    HeadsFramable opts (dechunkResume run htrd p) (dechunkResume run htrd (p ++ b)) →
    Joins opts a b (dechunkResume run htrd p) (dechunkResume run htrd (p ++ b)) := by
  have heq : ∀ q htrd, dechunkResume run htrd q = afterLength run (getchunklen htrd q) :=
    fun _ _ => rfl
  have hjoin := getchunklen_join hready.1 hready.2.1 hready.2.2 hne b
  rw [heq, heq]
  generalize getchunklen htrd p = out at hjoin ⊢
  generalize getchunklen htrd (p ++ b) = out' at hjoin ⊢
  have hquiet' : ∀ chunk, Quiet opts { htrd with chunk := chunk } := fun _ =>
    hquiet.congr rfl rfl rfl rfl
  cases hjoin with
  | failed e => exact fun _ => .failed rfl
  | @ended chunk hzero rest hlt hrest =>
    have hended : ∀ crlf, Quiet opts { htrd with
        chunk := { chunk with phase := chunk.phaseAfter }
        need := chunk.len
        crlf := crlf } := fun _ => hquiet.congr rfl rfl rfl rfl
    have hnot : ¬chunk.phaseAfter = .len := by
      rw [Chunk.phaseAfter]
      split
      · simp
      · split <;> simp
    rw [afterLength, if_neg hnot, afterLength, if_neg hnot]
    by_cases hphase : chunk.phaseAfter = .trailers
    · have hlen : chunk.len = 0 := by
        by_contra hlen
        simp only [Chunk.phaseAfter, hlen, if_false] at hphase
        split at hphase <;> cases hphase
      rw [if_pos hphase, if_pos hphase]
      exact dechunkGetTrailers_joins hb ih (hended 2) ⟨hlen, hphase⟩ (hrest.trans hp) (by omega)
    · rw [if_neg hphase]
      rw [if_neg hphase]
      exact readContent_joins hb ih (hended htrd.crlf) (hrest.trans hp) (by omega)
  | unended chunk hphase hzero hwhole =>
    have hready' : Ready { htrd with chunk := chunk } .dechunkResume :=
      ⟨hready.1, hphase, hzero⟩
    rw [afterLength, if_pos hphase]
    refine fun _ => .joined (resting_of_ready (hquiet' chunk) hready' (by simp))
      ((brokenLength_suffix hne hp).not.mpr hwhole) ?_
    rw [feed_of_ready (hquiet' chunk) hready' (by simp)]
    rfl
  | broken chunk hphase hzero hbroken =>
    have hready' : Ready { htrd with chunk := chunk } .dechunkResume :=
      ⟨hready.1, hphase, hzero⟩
    have hout : afterLength run (.ok ({ htrd with chunk := chunk }, [])) =
      .ok { htrd with chunk := chunk } := if_pos hphase
    rw [hout]
    exact fun _ => .broken (resting_of_ready (hquiet' chunk) hready' (by simp))
      ((brokenLength_suffix hne hp).mpr hbroken) rfl

theorem dechunkStart_joins (hquiet : Quiet opts htrd) (hready : Ready htrd .dechunkStart)
    (hp : p <:+ a) (hn : p.length ≤ n + 1) :
    HeadsFramable opts (dechunkStart run htrd p) (dechunkStart run htrd (p ++ b)) →
    Joins opts a b (dechunkStart run htrd p) (dechunkStart run htrd (p ++ b)) := by
  have hquiet' : Quiet opts { htrd with chunk := ⟨0, 0, .len⟩ } := hquiet.congr rfl rfl rfl rfl
  have hready' : Ready { htrd with chunk := ⟨0, 0, .len⟩ } .dechunkResume :=
    ⟨hready, rfl, fun _ => rfl⟩
  by_cases hnil : p = []
  · subst hnil
    refine fun _ => .joined (resting_of_ready hquiet' hready' (by simp))
      (fun hbroken => lt_irrefl 0 hbroken.2.1) ?_
    rw [feed_of_ready hquiet' hready' (by simp)]
    rfl
  · exact dechunkResume_joins hb ih hquiet' hready' hnil hp hn

theorem startBody_joins (hquiet : Quiet opts htrd) (hneed : htrd.need = 0)
    (hframable : Framable opts htrd.re.flags) (hp : p <:+ a) (hn : p.length ≤ n) :
    HeadsFramable opts (startBody run htrd p) (startBody run htrd (p ++ b)) →
    Joins opts a b (startBody run htrd p) (startBody run htrd (p ++ b)) := by
  rw [startBody, startBody]
  cases hchunked : htrd.re.flags.chunked with
  | true =>
    rw [if_pos rfl, if_pos rfl]
    exact dechunkStart_joins hb ih hquiet hneed hp (Nat.le_succ_of_le hn)
  | false =>
    have hlength : htrd.option.response = true → htrd.re.flags.length = true := by
      intro hresponse
      rw [hquiet.option] at hresponse
      simpa [hchunked] using hframable hresponse
    have hnone : ∀ q, ¬(htrd.option.response = true ∧ htrd.re.flags.length = false ∧ q) := by
      rintro q ⟨hresponse, hnot, -⟩
      rw [hlength hresponse] at hnot
      cases hnot
    have hnone' : ¬(htrd.option.response = true ∧ htrd.re.flags.length = false) := by
      rintro ⟨hresponse, hnot⟩
      rw [hlength hresponse] at hnot
      cases hnot
    have hquiet' : Quiet opts { htrd with need := htrd.re.contentLength } :=
      hquiet.congr rfl rfl rfl rfl
    rw [if_neg (by simp), if_neg (hnone _), if_neg hnone', if_neg (by simp),
      if_neg (hnone _), if_neg hnone']
    exact readContent_joins hb ih hquiet' hp hn

variable (hpeek : opts.peekOnly = false)

include hpeek

theorem headerComplete_joins (hquiet : Quiet opts htrd) (hneed : htrd.need = 0) (seen : List UInt8)
    (hp : p <:+ a) (hn : p.length ≤ n) :
    HeadsFramable opts (headerComplete run htrd seen p) (headerComplete run htrd seen (p ++ b)) →
    Joins opts a b (headerComplete run htrd seen p) (headerComplete run htrd seen (p ++ b)) := by
  simp only [headerComplete]
  cases hparse : parseInitialLineAndHeaders htrd.option htrd.re (htrd.raw ++ seen) with
  | error e => exact fun _ => .failed rfl
  | ok re =>
    have hfeed : htrd.option.peekOnly = false := by rw [hquiet.option, hpeek]
    simp only [hfeed, Bool.false_eq_true, if_false]
    have hquiet' : Quiet opts { htrd with
        crlf := 0
        plen := 0
        raw := htrd.raw ++ seen
        re := re
        heads := htrd.heads ++ [re.flags] } := hquiet.congr rfl rfl rfl rfl
    have hread : ∀ q, re.flags ∈ headsOf (startBody run { htrd with
        crlf := 0
        plen := 0
        raw := htrd.raw ++ seen
        re := re
        heads := htrd.heads ++ [re.flags] } q) := by
      intro q
      refine heads_startBody (fun label htrd ptr h => ?_) _ q ?_
      · exact h ▸ heads_jump _ label htrd ptr
      · exact mem_append_right _ (.head _)
    intro hheads
    exact startBody_joins hb ih hquiet' hneed (hheads re.flags (hread p) (hread (p ++ b))) hp hn
      hheads

theorem scan_joins (hquiet : Quiet opts htrd) (hready : Ready htrd .top) (seen : List UInt8)
    (hp : p <:+ a) (hn : p.length ≤ n + 1) :
    HeadsFramable opts (scan run htrd seen p) (scan run htrd seen (p ++ b)) →
    Joins opts a b (scan run htrd seen p) (scan run htrd seen (p ++ b)) := by
  induction p generalizing htrd seen with
  | nil =>
    have hquiet' : Quiet opts { htrd with raw := htrd.raw ++ seen } := hquiet.congr rfl rfl rfl rfl
    have hready' : Ready { htrd with raw := htrd.raw ++ seen } .top := hready
    refine fun _ => .joined (resting_of_ready hquiet' hready' (by simp))
      (whole_of_ready hready' (by simp) a b) ?_
    have hseen := scan_seen run htrd seen [] b
    rw [append_nil] at hseen
    rw [feed_of_ready hquiet' hready' (by simp), nil_append]
    exact hseen.symm
  | cons c p ihp =>
    have hp' : p <:+ a := (suffix_cons c p).trans hp
    have hn' : p.length ≤ n := Nat.le_of_succ_le_succ hn
    have hmore : ∀ crlf plen, Quiet opts { htrd with crlf := crlf, plen := plen } := fun _ _ =>
      hquiet.congr rfl rfl rfl rfl
    rw [cons_append, scan, scan]
    by_cases h0 : c = 0
    · rw [if_pos h0, if_pos h0]
      exact fun _ => .failed rfl
    rw [if_neg h0, if_neg h0]
    by_cases hlf : c = mt '\n'
    · rw [if_pos hlf, if_pos hlf]
      by_cases hfirst : htrd.crlf ≤ 1
      · rw [if_pos hfirst, if_pos hfirst]
        exact ihp (hmore 2 htrd.plen) hready _ hp' (Nat.le_succ_of_le hn')
      · rw [if_neg hfirst, if_neg hfirst]
        exact headerComplete_joins hb ih hpeek hquiet hready.1 _ hp' hn'
    · rw [if_neg hlf, if_neg hlf]
      by_cases hcr : c = mt '\r'
      · rw [if_pos hcr, if_pos hcr]
        exact ihp (hmore (seeCR htrd.crlf) htrd.plen) hready _ hp' (Nat.le_succ_of_le hn')
      · rw [if_neg hcr, if_neg hcr]
        exact ihp (hmore 0 (htrd.plen + 1)) hready _ hp' (Nat.le_succ_of_le hn')

end Join

theorem run_joins (hpeek : opts.peekOnly = false) {b : List UInt8} (hb : b ≠ []) {p : List UInt8}
    (hne : p ≠ []) (hp : p <:+ a) (hquiet : Quiet opts htrd) (hready : Ready htrd label)
    (hheads : HeadsFramable opts (run label htrd p) (run label htrd (p ++ b))) :
    Joins opts a b (run label htrd p) (run label htrd (p ++ b)) := by
  have hneed : label = .contentResume → 0 < htrd.need := by
    rintro rfl
    exact hready
  induction hlen : p.length using Nat.strong_induction_on generalizing label htrd p with
  | _ m ihm =>
    obtain _ | n := m
    · exact absurd (length_eq_zero_iff.mp hlen) hne
    have ih : ∀ label htrd p, label = .top ∨ label = .dechunkStart → p ≠ [] → p <:+ a →
        p.length ≤ n → Quiet opts htrd → Ready htrd label →
        HeadsFramable opts (run label htrd p) (run label htrd (p ++ b)) →
        Joins opts a b (run label htrd p) (run label htrd (p ++ b)) := by
      intro label htrd p hlabel hne hp hn hquiet hready hheads
      refine ihm p.length (Nat.lt_succ_of_le hn) hne hp hquiet hready hheads ?_ rfl
      rintro rfl
      rcases hlabel with h | h <;> cases h
    rw [run_eq hneed, run_eq hneed] at hheads ⊢
    cases label with
    | top => exact scan_joins hb ih hpeek hquiet hready [] hp hlen.le hheads
    | dechunkStart => exact dechunkStart_joins hb ih hquiet hready hp hlen.le hheads
    | dechunkResume => exact dechunkResume_joins hb ih hquiet hready hne hp hlen.le hheads
    | dechunkGetTrailers => exact dechunkGetTrailers_joins hb ih hquiet hready hp hlen.le hheads
    | contentResume => exact contentResume_joins hb ih hquiet hready hp hlen.le hheads
    | dechunkCrlf => exact dechunkCrlf_joins hb ih hquiet hready hp hlen.le hheads

theorem feed_joins (hpeek : opts.peekOnly = false) {b : List UInt8} (ha : a ≠ []) (hb : b ≠ [])
    (hrest : Resting opts htrd) (hheads : HeadsFramable opts (feed htrd a) (feed htrd (a ++ b))) :
    Joins opts a b (feed htrd a) (feed htrd (a ++ b)) := by
  have hquiet' : Quiet opts htrd.entered := by
    rw [Htrd.entered]
    split
    · exact ⟨hrest.quiet.option, hrest.quiet.suspended, hrest.quiet.dummified,
        hrest.quiet.untilClose⟩
    · exact hrest.quiet
  rw [feed_eq_run hrest.quiet, feed_eq_run hrest.quiet] at hheads ⊢
  exact run_joins hpeek hb ha (suffix_refl a) hquiet' hrest.ready hheads

def Seams : Htrd → List (List UInt8) → Prop
  | htrd, a :: b :: pieces =>
    match feed htrd a with
    | .error _ => True
    | .ok htrd' => ¬BrokenLength htrd' a b ∧ Seams htrd' (b :: pieces)
  | _, _ => True

theorem brokenLength_append {prev next : List UInt8} (hne : next ≠ []) (more : List UInt8) :
    BrokenLength htrd prev (next ++ more) ↔ BrokenLength htrd prev next := by
  rw [BrokenLength, BrokenLength, head?_append_of_ne_nil _ hne]

instance (htrd : Htrd) (prev next : List UInt8) : Decidable (BrokenLength htrd prev next) :=
  have : Decidable (∀ c ∈ prev.getLast?, xdigitToNum c = none) :=
    Option.decidableForallMem _
  inferInstanceAs (Decidable (_ ∧ _ ∧ _ ∧ _))

instance decidableSeams : (htrd : Htrd) → (pieces : List (List UInt8)) →
    Decidable (Seams htrd pieces)
  | _, [] => .isTrue trivial
  | _, [_] => .isTrue trivial
  | htrd, a :: b :: pieces =>
    match h : feed htrd a with
    | .error _ => .isTrue (by simp [Seams, h])
    | .ok htrd' =>
      have := decidableSeams htrd' (b :: pieces)
      decidable_of_iff (¬BrokenLength htrd' a b ∧ Seams htrd' (b :: pieces))
        (by simp [Seams, h])

/-- `QSE_HTRD_REQUEST | QSE_HTRD_TRAILERS | QSE_HTRD_CANONQPATH`, as for a client of the
server. -/
def clientOptions : Options where
  skipInitialLine := false
  canonQPath := true
  peekOnly := false
  request := true
  response := false
  trailers := true
  strict := false

end Qse.Http
