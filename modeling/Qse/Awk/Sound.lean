import Qse.Awk.Value

/-!
# Values in use

The values that are in use stand apart from those that are kept for another use, and making a
value takes one that is not in use.
-/

open Function List

namespace Qse.Awk

namespace Rtx

variable {F : Type}

def Cached (s : Rtx F) (a : Addr) : Prop := ∃ p, a ∈ s.pool p

def Live (s : Rtx F) : Vtr → Prop
  | .quickint _ => True
  | .pointer a => s.used a = true ∧ ¬s.Cached a

/-- The values in use stay in use, and no one writes to them. -/
def Keeps (s s' : Rtx F) : Prop :=
  ∀ a, s.Live (.pointer a) → s'.Live (.pointer a) ∧ s'.mem a = s.mem a

def Shows (s s' : Rtx F) : Prop := ∀ v, s.Live v → s'.Live v ∧ s'.view v = s.view v

def LetsGo (s s' : Rtx F) : Prop := ∀ v, s'.Live v → s.Live v ∧ s'.view v = s.view v

def Fits : Pool → Body F → Prop
  | .scache i, body => ∃ len block, body = .str len block ∧ (i + 1) * scacheBlockUnit ≤ block.length
  | _, _ => True

def HasRoom (cell : Cell F) : Prop :=
  ∀ len block, cell.body = .str len block → intClass len < scacheNumBlocks →
    (intClass len + 1) * scacheBlockUnit ≤ block.length

/-- The static values are what they are, and the pools hold values that no one refers to, each
of them once. -/
structure Sound (s : Rtx F) : Prop where
  nil : s.mem valNil = some ⟨0, true, 0, .nil⟩
  zls : s.mem valZls = some ⟨0, true, 0, .str 0 [0]⟩
  zlm : s.mem valZlm = some ⟨0, true, 0, .mbs []⟩
  spare : ∀ p a, a ∈ s.pool p → ∃ cell, s.mem a = some cell ∧ cell.stat = false ∧ cell.ref = 0 ∧
    Fits p cell.body
  nodup : ∀ p, (s.pool p).Nodup
  apart : ∀ p q a, a ∈ s.pool p → a ∈ s.pool q → p = q
  room : ∀ a cell, s.mem a = some cell → cell.stat = false → HasRoom cell

theorem sound_open : Sound (Rtx.open : Rtx F) where
  nil := rfl
  zls := rfl
  zlm := rfl
  spare p a h := by simp [Rtx.open] at h
  nodup p := nodup_nil
  apart p q a h := by simp [Rtx.open] at h
  room a cell h hstat := by
    simp only [Rtx.open] at h
    split_ifs at h
    all_goals
      cases h
      cases hstat

/-! ## Single changes -/

section Fields

variable (s : Rtx F) (a b : Addr) (cell : Cell F) (p q : Pool) (as : List Addr)

@[simp] theorem put_mem_self : (s.put a cell).mem a = some cell := update_self ..

theorem put_mem_of_ne (h : b ≠ a) : (s.put a cell).mem b = s.mem b := update_of_ne h ..

@[simp] theorem put_pool : (s.put a cell).pool = s.pool := rfl

@[simp] theorem freemem_mem_self : (s.freemem a).mem a = none := update_self ..

theorem freemem_mem_of_ne (h : b ≠ a) : (s.freemem a).mem b = s.mem b :=
  update_of_ne h ..

@[simp] theorem setPool_pool_self : (s.setPool p as).pool p = as := update_self ..

theorem setPool_pool_of_ne (h : q ≠ p) : (s.setPool p as).pool q = s.pool q :=
  update_of_ne h ..

end Fields

variable {s s' s'' : Rtx F} {a b : Addr} {cell : Cell F} {p : Pool}

theorem Keeps.refl (s : Rtx F) : Keeps s s := fun _ h => ⟨h, rfl⟩

theorem Keeps.trans (h : Keeps s s') (h' : Keeps s' s'') : Keeps s s'' := by
  intro a ha
  obtain ⟨hlive, hmem⟩ := h a ha
  obtain ⟨hlive', hmem'⟩ := h' a hlive
  exact ⟨hlive', hmem'.trans hmem⟩

theorem Keeps.shows (h : Keeps s s') : Shows s s' := by
  rintro (q | a) hv
  · exact ⟨trivial, rfl⟩
  · obtain ⟨hlive, hmem⟩ := h a hv
    exact ⟨hlive, by rw [view, view, hmem]⟩

theorem LetsGo.refl (s : Rtx F) : LetsGo s s := fun _ h => ⟨h, rfl⟩

theorem LetsGo.trans (h : LetsGo s s') (h' : LetsGo s' s'') : LetsGo s s'' := by
  intro v hv
  obtain ⟨hlive', hview'⟩ := h' v hv
  obtain ⟨hlive, hview⟩ := h v hlive'
  exact ⟨hlive, hview'.trans hview⟩

theorem Sound.put (h : Sound s) {old : Cell F} (hold : s.mem a = some old)
    (holdstat : old.stat = false) (hcached : ¬s.Cached a) (hroom : HasRoom cell) :
    Sound (s.put a cell) := by
  have hne {b : Addr} {c : Cell F} (hb : s.mem b = some c) (hc : c.stat = true) : b ≠ a := by
    rintro rfl
    rw [hold] at hb
    cases hb
    rw [holdstat] at hc
    cases hc
  refine ⟨?_, ?_, ?_, ?_, h.nodup, h.apart, ?_⟩
  · rw [put_mem_of_ne _ _ _ _ (hne h.nil rfl), h.nil]
  · rw [put_mem_of_ne _ _ _ _ (hne h.zls rfl), h.zls]
  · rw [put_mem_of_ne _ _ _ _ (hne h.zlm rfl), h.zlm]
  · intro p b hb
    have hba : b ≠ a := by
      rintro rfl
      exact hcached ⟨p, hb⟩
    rw [put_mem_of_ne _ _ _ _ hba]
    exact h.spare p b hb
  · intro b c hb hc
    by_cases hba : b = a
    · subst hba
      rw [put_mem_self] at hb
      cases hb
      exact hroom
    · rw [put_mem_of_ne _ _ _ _ hba] at hb
      exact h.room b c hb hc

theorem Sound.put_new (h : Sound s) (hfree : s.mem a = none) (hroom : HasRoom cell) :
    Sound (s.put a cell) := by
  have hne {b : Addr} {c : Cell F} (hb : s.mem b = some c) : b ≠ a := by
    rintro rfl
    rw [hfree] at hb
    cases hb
  refine ⟨?_, ?_, ?_, ?_, h.nodup, h.apart, ?_⟩
  · rw [put_mem_of_ne _ _ _ _ (hne h.nil), h.nil]
  · rw [put_mem_of_ne _ _ _ _ (hne h.zls), h.zls]
  · rw [put_mem_of_ne _ _ _ _ (hne h.zlm), h.zlm]
  · intro p b hb
    obtain ⟨c, hc, hrest⟩ := h.spare p b hb
    exact ⟨c, by rw [put_mem_of_ne _ _ _ _ (hne hc), hc], hrest⟩
  · intro b c hb hc
    by_cases hba : b = a
    · subst hba
      rw [put_mem_self] at hb
      cases hb
      exact hroom
    · rw [put_mem_of_ne _ _ _ _ hba] at hb
      exact h.room b c hb hc

theorem Sound.take {free : List Addr} (h : Sound s) (hpool : s.pool p = a :: free) :
    Sound (s.setPool p free) ∧ ¬(s.setPool p free).Cached a := by
  have hnodup := h.nodup p
  rw [hpool] at hnodup
  obtain ⟨hnotin, hfree⟩ := nodup_cons.1 hnodup
  have hsub {q : Pool} {b : Addr} (hb : b ∈ (s.setPool p free).pool q) : b ∈ s.pool q := by
    by_cases hq : q = p
    · subst hq
      rw [setPool_pool_self] at hb
      rw [hpool]
      exact .tail _ hb
    · rwa [setPool_pool_of_ne _ _ _ _ hq] at hb
  refine ⟨⟨h.nil, h.zls, h.zlm, fun q b hb => h.spare q b (hsub hb), ?_,
    fun q r b hb hb' => h.apart q r b (hsub hb) (hsub hb'), h.room⟩, ?_⟩
  · intro q
    by_cases hq : q = p
    · subst hq
      rwa [setPool_pool_self]
    · rw [setPool_pool_of_ne _ _ _ _ hq]
      exact h.nodup q
  · rintro ⟨q, hq⟩
    have hpq : q = p := h.apart q p a (hsub hq) (by simp [hpool])
    subst hpq
    rw [setPool_pool_self] at hq
    exact hnotin hq

theorem Sound.keep (h : Sound s) (hmem : s.mem a = some cell) (hstat : cell.stat = false)
    (href : cell.ref = 0) (hfits : Fits p cell.body) (hcached : ¬s.Cached a) :
    Sound (s.keep p a) := by
  have hsub {q : Pool} {b : Addr} (hb : b ∈ (s.keep p a).pool q) :
      (q = p ∧ b = a) ∨ b ∈ s.pool q := by
    by_cases hq : q = p
    · subst hq
      rw [Rtx.keep, setPool_pool_self, mem_cons] at hb
      exact hb.imp (⟨rfl, ·⟩) id
    · rw [Rtx.keep, setPool_pool_of_ne _ _ _ _ hq] at hb
      exact .inr hb
  refine ⟨h.nil, h.zls, h.zlm, ?_, ?_, ?_, h.room⟩
  · intro q b hb
    rcases hsub hb with ⟨rfl, rfl⟩ | hb
    · exact ⟨cell, hmem, hstat, href, hfits⟩
    · exact h.spare q b hb
  · intro q
    by_cases hq : q = p
    · subst hq
      rw [Rtx.keep, setPool_pool_self]
      exact nodup_cons.2 ⟨fun ha => hcached ⟨q, ha⟩, h.nodup q⟩
    · rw [Rtx.keep, setPool_pool_of_ne _ _ _ _ hq]
      exact h.nodup q
  · intro q r b hb hb'
    rcases hsub hb with ⟨rfl, rfl⟩ | hq
    · rcases hsub hb' with ⟨rfl, -⟩ | hr
      · rfl
      · exact absurd ⟨r, hr⟩ hcached
    · rcases hsub hb' with ⟨rfl, rfl⟩ | hr
      · exact absurd ⟨q, hq⟩ hcached
      · exact h.apart q r b hq hr

theorem Sound.freemem (h : Sound s) (hmem : s.mem a = some cell) (hstat : cell.stat = false)
    (hcached : ¬s.Cached a) : Sound (s.freemem a) := by
  have hne {b : Addr} {c : Cell F} (hb : s.mem b = some c) (hc : c.stat = true) : b ≠ a := by
    rintro rfl
    rw [hmem] at hb
    cases hb
    rw [hstat] at hc
    cases hc
  refine ⟨?_, ?_, ?_, ?_, h.nodup, h.apart, ?_⟩
  · rw [freemem_mem_of_ne _ _ _ (hne h.nil rfl), h.nil]
  · rw [freemem_mem_of_ne _ _ _ (hne h.zls rfl), h.zls]
  · rw [freemem_mem_of_ne _ _ _ (hne h.zlm rfl), h.zlm]
  · intro p b hb
    have hba : b ≠ a := by
      rintro rfl
      exact hcached ⟨p, hb⟩
    rw [freemem_mem_of_ne _ _ _ hba]
    exact h.spare p b hb
  · intro b c hb hc
    by_cases hba : b = a
    · subst hba
      rw [freemem_mem_self] at hb
      cases hb
    · rw [freemem_mem_of_ne _ _ _ hba] at hb
      exact h.room b c hb hc

theorem Sound.called (h : Sound s) : Sound s.called :=
  ⟨h.nil, h.zls, h.zlm, h.spare, h.nodup, h.apart, h.room⟩

/-! ## New values -/

/-- A value with the contents has been made at the address, which was not in use. -/
structure Makes (s s' : Rtx F) (a : Addr) (body : Body F) : Prop where
  sound : Sound s'
  keeps : Keeps s s'
  fresh : ¬s.Live (.pointer a)
  live : s'.Live (.pointer a)
  mem : s'.mem a = some ⟨0, false, 0, body⟩

theorem keeps_of (hmem : ∀ b, s.used b = true → ¬s.Cached b → s'.mem b = s.mem b)
    (hcached : ∀ b, s.used b = true → s'.Cached b → s.Cached b) : Keeps s s' := by
  rintro b ⟨hused, hnot⟩
  have hb := hmem b hused hnot
  refine ⟨⟨?_, fun hb' => hnot (hcached b hused hb')⟩, hb⟩
  rw [used, hb]
  exact hused

theorem keeps_called (s : Rtx F) : Keeps s s.called := fun _ h => ⟨h, rfl⟩

theorem Sound.makes_take {free : List Addr} {body : Body F} (h : Sound s)
    (hpool : s.pool p = a :: free) (hroom : HasRoom ⟨0, false, 0, body⟩) :
    Makes s ((s.setPool p free).init a body) a body := by
  obtain ⟨hsound, hnot⟩ := h.take hpool
  have ha : a ∈ s.pool p := by simp [hpool]
  obtain ⟨old, hold, hstat, -⟩ := h.spare p a ha
  have hcached : s.Cached a := ⟨p, ha⟩
  refine ⟨hsound.put hold hstat hnot hroom, keeps_of ?_ ?_, fun hlive => hlive.2 hcached, ?_,
    put_mem_self ..⟩
  · intro b _ hb
    have hba : b ≠ a := by
      rintro rfl
      exact hb hcached
    exact put_mem_of_ne _ _ _ _ hba
  · rintro b - ⟨q, hq⟩
    by_cases hqp : q = p
    · subst hqp
      rw [init, put_pool, setPool_pool_self] at hq
      exact ⟨q, by rw [hpool]; exact .tail _ hq⟩
    · rw [init, put_pool, setPool_pool_of_ne _ _ _ _ hqp] at hq
      exact ⟨q, hq⟩
  · exact ⟨by rw [used, init, put_mem_self]; rfl, hnot⟩

theorem Sound.makes_alloc {mm : Mmgr} {body : Body F} (h : Sound s)
    (halloc : mm.alloc s.calls s.used 1 = some a) (hroom : HasRoom ⟨0, false, 0, body⟩) :
    Makes s (s.called.init a body) a body := by
  have hunused : s.used a = false := mm.unused _ _ _ _ halloc 0 Nat.one_pos
  have hfree : s.mem a = none := by
    rw [used] at hunused
    simpa using hunused
  have hcached : ¬s.Cached a := by
    rintro ⟨p, hp⟩
    obtain ⟨cell, hcell, -⟩ := h.spare p a hp
    rw [hfree] at hcell
    cases hcell
  have hfresh : ¬s.Live (.pointer a) := by
    rintro ⟨hused, -⟩
    rw [hunused] at hused
    cases hused
  refine ⟨h.called.put_new hfree hroom, keeps_of ?_ fun b _ hb => hb, hfresh, ?_, put_mem_self ..⟩
  · intro b hb _
    have hba : b ≠ a := by
      rintro rfl
      rw [hunused] at hb
      cases hb
    exact put_mem_of_ne _ _ _ _ hba
  · exact ⟨by rw [used, init, put_mem_self]; rfl, hcached⟩

def Outcome (s s' : Rtx F) (body : Body F) : Option Vtr → Prop
  | none => Sound s' ∧ Keeps s s'
  | some v => ∃ a, v = .pointer a ∧ Makes s s' a body

variable {mm : Mmgr} {body : Body F}

theorem Sound.outcome_alloc (h : Sound s) (hroom : HasRoom ⟨0, false, 0, body⟩) :
    Outcome s (s.alloc mm body).1 body (s.alloc mm body).2 := by
  rw [alloc]
  cases halloc : mm.alloc s.calls s.used 1 with
  | none => exact ⟨h.called, keeps_called s⟩
  | some a => exact ⟨a, rfl, h.makes_alloc halloc hroom⟩

theorem Sound.chunk {c n : ℕ} (h : Sound s) (hpool : s.pool p = []) (hp : ∀ i, p ≠ .scache i)
    (hfree : ∀ b : ℕ, c ≤ b → b < c + (n + 1) → s.mem b = none) :
    let slots : Rtx F := { s with
      mem := fun b => if c ≤ b ∧ b < c + (n + 1) then some ⟨0, false, 0, .raw⟩ else s.mem b }
    Sound (slots.setPool p ((List.range n).map (c + 1 + ·))) ∧
      ¬(slots.setPool p ((List.range n).map (c + 1 + ·))).Cached c := by
  intro slots
  have hold {b : ℕ} {cell : Cell F} (hb : s.mem b = some cell) : slots.mem b = some cell := by
    have hnot : ¬(c ≤ b ∧ b < c + (n + 1)) := by
      rintro ⟨hlow, hhigh⟩
      rw [hfree b hlow hhigh] at hb
      cases hb
    exact (if_neg hnot).trans hb
  have hsplit {q : Pool} {b : ℕ}
      (hb : b ∈ (slots.setPool p ((List.range n).map (c + 1 + ·))).pool q) :
      (q = p ∧ c < b ∧ b < c + (n + 1)) ∨ (q ≠ p ∧ b ∈ s.pool q) := by
    by_cases hq : q = p
    · subst hq
      rw [setPool_pool_self, mem_map] at hb
      obtain ⟨i, hi, rfl⟩ := hb
      rw [mem_range] at hi
      exact .inl ⟨rfl, by omega, by omega⟩
    · rw [setPool_pool_of_ne _ _ _ _ hq] at hb
      exact .inr ⟨hq, hb⟩
  have hused {q : Pool} {b : ℕ} (hb : b ∈ s.pool q) : ¬(c ≤ b ∧ b < c + (n + 1)) := by
    rintro ⟨hlow, hhigh⟩
    obtain ⟨cell, hcell, -⟩ := h.spare q b hb
    rw [hfree b hlow hhigh] at hcell
    cases hcell
  refine ⟨⟨hold h.nil, hold h.zls, hold h.zlm, ?_, ?_, ?_, ?_⟩, ?_⟩
  · intro q b hb
    rcases hsplit hb with ⟨rfl, hlow, hhigh⟩ | ⟨-, hb⟩
    · refine ⟨⟨0, false, 0, .raw⟩, if_pos ⟨hlow.le, hhigh⟩, rfl, rfl, ?_⟩
      cases q with
      | ifree | rfree | rcache => trivial
      | scache i => exact absurd rfl (hp i)
    · obtain ⟨cell, hcell, hrest⟩ := h.spare q b hb
      exact ⟨cell, hold hcell, hrest⟩
  · intro q
    by_cases hq : q = p
    · subst hq
      rw [setPool_pool_self]
      exact List.Nodup.map (fun i j hij => by simpa using hij) nodup_range
    · rw [setPool_pool_of_ne _ _ _ _ hq]
      exact h.nodup q
  · intro q r b hq hr
    rcases hsplit hq with ⟨rfl, hlow, hhigh⟩ | ⟨-, hold⟩
    · rcases hsplit hr with ⟨rfl, -⟩ | ⟨-, hr⟩
      · rfl
      · exact absurd ⟨hlow.le, hhigh⟩ (hused hr)
    · rcases hsplit hr with ⟨rfl, hlow, hhigh⟩ | ⟨-, hr⟩
      · exact absurd ⟨hlow.le, hhigh⟩ (hused hold)
      · exact h.apart q r b hold hr
  · intro b cell hb hstat
    by_cases hin : c ≤ b ∧ b < c + (n + 1)
    · have hraw : slots.mem b = some ⟨0, false, 0, .raw⟩ := if_pos hin
      obtain rfl : ⟨0, false, 0, .raw⟩ = cell := Option.some.inj (hraw.symm.trans hb)
      rintro len block ⟨⟩
    · have hsame : slots.mem b = s.mem b := if_neg hin
      exact h.room b cell (hsame.symm.trans hb) hstat
  · rintro ⟨q, hq⟩
    rcases hsplit hq with ⟨-, hlow, -⟩ | ⟨-, hc⟩
    · exact absurd hlow (lt_irrefl c)
    · exact hused hc ⟨le_rfl, by omega⟩

theorem Sound.outcome_takeSlot (h : Sound s) (hroom : HasRoom ⟨0, false, 0, body⟩)
    (hp : ∀ i, p ≠ .scache i) :
    Outcome s (s.takeSlot mm p body).1 body (s.takeSlot mm p body).2 := by
  rw [takeSlot]
  cases hpool : s.pool p with
  | cons a free => exact ⟨a, rfl, h.makes_take hpool hroom⟩
  | nil =>
    cases halloc : mm.alloc s.calls s.used chunkSize with
    | none => exact ⟨h.called, keeps_called s⟩
    | some c =>
      have hfree : ∀ b : ℕ, c ≤ b → b < c + chunkSize → s.mem b = none := by
        intro b hlow hhigh
        have hb := mm.unused _ _ _ _ halloc (b - c) (Nat.sub_lt_left_of_lt_add hlow hhigh)
        rw [Nat.add_sub_cancel' hlow, used] at hb
        simpa using hb
      obtain ⟨hsound, hnot⟩ := h.called.chunk (n := chunkSize - 1) hpool hp hfree
      change Outcome s ((Rtx.setPool _ p _).init c body) body (some (.pointer c))
      refine ⟨c, rfl, hsound.put (if_pos ⟨le_rfl, by simp [chunkSize]⟩) rfl hnot hroom,
        ?_, ?_, ?_, put_mem_self ..⟩
      · refine keeps_of ?_ ?_
        · intro (b : ℕ) hb _
          have hout : ¬(c ≤ b ∧ b < c + chunkSize) := by
            rintro ⟨hlow, hhigh⟩
            rw [used, hfree b hlow hhigh] at hb
            cases hb
          have hbc : b ≠ c := by
            rintro rfl
            exact hout ⟨le_rfl, by simp [chunkSize]⟩
          exact (put_mem_of_ne _ _ _ _ hbc).trans (if_neg hout)
        · rintro b hb ⟨q, hq⟩
          rw [Rtx.init, put_pool] at hq
          by_cases hqp : q = p
          · subst hqp
            rw [setPool_pool_self, mem_map] at hq
            obtain ⟨i, hi, rfl⟩ := hq
            rw [mem_range] at hi
            have hhigh : c + 1 + i < c + chunkSize := by
              rw [add_assoc, Nat.add_lt_add_iff_left]
              omega
            have hlow : c ≤ c + 1 + i := Nat.le_add_right_of_le (Nat.le_succ c)
            rw [used, hfree _ hlow hhigh] at hb
            cases hb
          · rw [setPool_pool_of_ne _ _ _ _ hqp] at hq
            exact ⟨q, hq⟩
      · rintro ⟨hused, -⟩
        rw [used, hfree c le_rfl (by simp [chunkSize])] at hused
        cases hused
      · exact ⟨by rw [used, Rtx.init, put_mem_self]; rfl, hnot⟩

/-! ## Strings -/

theorem hasRoom_of_ne {cell : Cell F} (h : ∀ len block, cell.body ≠ .str len block) :
    HasRoom cell := fun len block hbody => absurd hbody (h len block)

/-- The class suits the length of the string: a block of the class holds the string, and is
one of the class that the string will be kept in. -/
structure Suits (i len : ℕ) : Prop where
  fits : i < scacheNumBlocks → len < (i + 1) * scacheBlockUnit
  kept : intClass len < scacheNumBlocks → i < scacheNumBlocks → intClass len ≤ i
  large : intClass len < scacheNumBlocks → ¬i < scacheNumBlocks →
    (intClass len + 1) * scacheBlockUnit ≤ len + 1

theorem intClass_le (len : ℕ) (h : intClass len < scacheNumBlocks) :
    intClass len ≤ len / scacheBlockUnit := by
  simp only [intClass, scacheNumBlocks] at h ⊢
  split at h
  · rename_i hsmall
    rw [if_pos hsmall]
    exact Nat.mod_le _ _
  · omega

theorem suits_div (len : ℕ) : Suits (len / scacheBlockUnit) len where
  fits _ := by
    simp only [scacheBlockUnit]
    omega
  kept h _ := intClass_le len h
  large h hlarge := by
    simp only [scacheBlockUnit, scacheNumBlocks] at h hlarge ⊢
    omega

theorem suits_intClass {len : ℕ} (h : len < 2 ^ 36) : Suits (intClass len) len where
  fits hclass := by
    have hsmall : len / scacheBlockUnit % 2 ^ 32 = len / scacheBlockUnit := by
      simp only [scacheBlockUnit]
      omega
    have hbig : ¬len / scacheBlockUnit + (2 ^ 64 - 2 ^ 32) < scacheNumBlocks := by
      simp only [scacheNumBlocks]
      omega
    rw [intClass, hsmall] at hclass ⊢
    by_cases hint : len / scacheBlockUnit < 2 ^ 31
    · rw [if_pos hint]
      simp only [scacheBlockUnit]
      omega
    · rw [if_neg hint] at hclass
      exact absurd hclass hbig
  kept _ _ := le_rfl
  large h h' := absurd h h'

variable {str : CStr} {i : ℕ}

theorem CStr.write_eq_ok {block : List UInt32} (h : str.len < block.length) :
    ∃ block', str.write block = .ok block' ∧ block'.length = block.length ∧
      ∀ text, str = .text text → block'.take text.length = text := by
  cases str with
  | null len => exact ⟨block, rfl, rfl, by simp⟩
  | text text =>
    have hfit : ¬block.length < text.length + 1 := by
      simp only [CStr.len] at h
      omega
    refine ⟨text ++ 0 :: block.drop (text.length + 1), by rw [CStr.write, if_neg hfit], ?_, ?_⟩
    · simp only [length_append, length_cons, length_drop]
      omega
    · rintro _ ⟨⟩
      exact take_left

def StrOutcome (s s' : Rtx F) (str : CStr) (v : Option Vtr) : Prop :=
  ∃ block, Outcome s s' (.str str.len block) v ∧
    ∀ text, str = .text text → v ≠ none → block.take text.length = text

theorem Sound.strOutcome_none (h : Sound s') (hkeeps : Keeps s s') : StrOutcome s s' str none :=
  ⟨[], ⟨h, hkeeps⟩, fun _ _ hne => absurd rfl hne⟩

theorem makeStr_of_takeBlock {s₁ : Rtx F} {block : List UInt32}
    (htake : s.takeBlock mm i str.len = .ok (s₁, some (a, block))) (hlen : str.len < block.length)
    (hroom : intClass str.len < scacheNumBlocks →
      (intClass str.len + 1) * scacheBlockUnit ≤ block.length)
    (hmakes : ∀ body, HasRoom ⟨0, false, 0, body⟩ → Makes s (s₁.init a body) a body) :
    ∃ s' v, s.makeStr mm i str = .ok (s', v) ∧ StrOutcome s s' str v := by
  obtain ⟨block', hwrite, hlen', htext⟩ := CStr.write_eq_ok hlen
  refine ⟨s₁.init a (.str str.len block'), some (.pointer a), ?_, block', ⟨a, rfl, hmakes _ ?_⟩,
    fun text htext' _ => htext text htext'⟩
  · simp only [Rtx.makeStr, htake, ok_bind, hwrite]
  · rintro len block ⟨⟩ hclass
    rw [hlen']
    exact hroom hclass

theorem Sound.makeStr_fresh (mm : Mmgr) (h : Sound s) (rlen : ℕ) (htake : s.takeBlock mm i str.len =
      .ok (match mm.alloc s.calls s.used 1 with
        | none => (s.called, none)
        | some a => (s.called, some (a, List.replicate (rlen + 1) 0)))) (hlen : str.len < rlen + 1)
    (hroom : intClass str.len < scacheNumBlocks →
      (intClass str.len + 1) * scacheBlockUnit ≤ rlen + 1) :
    ∃ s' v, s.makeStr mm i str = .ok (s', v) ∧ StrOutcome s s' str v := by
  cases halloc : mm.alloc s.calls s.used 1 with
  | none =>
    rw [halloc] at htake
    refine ⟨s.called, none, ?_, h.called.strOutcome_none (keeps_called s)⟩
    simp only [Rtx.makeStr, htake, ok_bind]
  | some a =>
    rw [halloc] at htake
    refine makeStr_of_takeBlock htake ?_ ?_ fun body => h.makes_alloc halloc
    · rwa [length_replicate]
    · rwa [length_replicate]

theorem Sound.makeStr (mm : Mmgr) (h : Sound s) (str : CStr) (hsuits : Suits i str.len) :
    ∃ s' v, s.makeStr mm i str = .ok (s', v) ∧ StrOutcome s s' str v := by
  by_cases hi : i < scacheNumBlocks
  · have hfits := hsuits.fits hi
    have hkept := fun hclass => hsuits.kept hclass hi
    cases hpool : s.pool (.scache i) with
    | nil =>
      have hsub : (i + 1) * scacheBlockUnit - 1 + 1 = (i + 1) * scacheBlockUnit :=
        Nat.sub_add_cancel (by simp [scacheBlockUnit]; omega)
      refine h.makeStr_fresh mm ((i + 1) * scacheBlockUnit - 1) ?_ ?_ ?_
      · rewrite [takeBlock, if_pos hi, hpool]
        rfl
      · rwa [hsub]
      · intro hclass
        rw [hsub]
        exact Nat.mul_le_mul_right _ (Nat.add_le_add_right (hkept hclass) 1)
    | cons a free =>
      obtain ⟨cell, hcell, -, -, len, block, hbody, hblock⟩ :=
        h.spare (.scache i) a (by simp [hpool])
      obtain ⟨ref, stat, nstr, body⟩ := cell
      cases hbody
      have htake : s.takeBlock mm i str.len =
          .ok (s.setPool (.scache i) free, some (a, block)) := by
        simp only [takeBlock, if_pos hi, hpool, hcell]
      refine makeStr_of_takeBlock htake ?_ ?_ fun body => h.makes_take hpool
      · exact hfits.trans_le hblock
      · intro hclass
        exact (Nat.mul_le_mul_right _ (Nat.add_le_add_right (hkept hclass) 1)).trans hblock
  · refine h.makeStr_fresh mm str.len ?_ (lt_add_one _) fun hclass => hsuits.large hclass hi
    rewrite [takeBlock, if_neg hi]
    rfl

end Rtx

end Qse.Awk
