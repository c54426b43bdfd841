import Qse.Awk.Compare
import Qse.Awk.Construct

/-!
# Values that are shared

In a run in which values are made, referred to and let go, a value in use stays what it was when
it was made, unless a numeric string is made of an empty string.
-/

namespace Qse.Awk

variable {F : Type}

/-- A value that has been made, what it was made from, unless another construction made it on its
way, and what was seen of it then -/
structure Made (F : Type) where
  construct : Option (Construct F)
  v : Vtr
  view : View F

namespace Rtx

/-- The contexts that are reached by making values in the ways that are allowed, and the values
in use that were made; those in a map that is made with its data are looked at. -/
inductive Reach (env : Env F) (Allowed : Construct F → Prop) : Rtx F → List (Made F) → Prop
  | init : Reach env Allowed Rtx.open []
  | make {s s' : Rtx F} {made : List (Made F)} {c : Construct F} {v : Vtr} {w : View F} :
      Reach env Allowed s made → Allowed c → s.make env c = .ok (s', some v) →
      s'.view v = some w → Reach env Allowed s' (⟨some c, v, w⟩ :: made)
  | look {s : Rtx F} {made : List (Made F)} {v : Vtr} {w : View F} :
      Reach env Allowed s made → s.Live v → s.view v = some w →
      Reach env Allowed s (⟨none, v, w⟩ :: made)
  | refuse {s s' : Rtx F} {made : List (Made F)} {c : Construct F} :
      Reach env Allowed s made → Allowed c → s.make env c = .ok (s', none) →
      Reach env Allowed s' made
  | refup {s s' : Rtx F} {made : List (Made F)} {v : Vtr} :
      Reach env Allowed s made → s.Live v → s.refupval v = .ok s' → Reach env Allowed s' made
  | refdown {s s' : Rtx F} {made made' : List (Made F)} {v : Vtr} {n : ℕ} :
      Reach env Allowed s made → s.Live v → refdownvals n s [v] = .ok s' →
      made'.Sublist made → (∀ m ∈ made', s'.Live m.v) → Reach env Allowed s' made'

def Kept (env : Env F) (s : Rtx F) (made : List (Made F)) : Prop :=
  ∀ m ∈ made, s.Live m.v ∧ s.view m.v = some m.view ∧
    ∀ c ∈ m.construct, ∀ w, c.meaning env = some w → m.view = w

variable {env : Env F} {s s' : Rtx F} {made made' : List (Made F)}

theorem Kept.shows (h : Kept env s made) (hshows : Shows s s') : Kept env s' made := by
  intro m hm
  obtain ⟨hlive, hview, hmeaning⟩ := h m hm
  obtain ⟨hlive', hview'⟩ := hshows m.v hlive
  exact ⟨hlive', hview'.trans hview, hmeaning⟩

theorem Kept.letsGo (h : Kept env s made) (hgo : LetsGo s s') (hsub : made'.Sublist made)
    (hlive : ∀ m ∈ made', s'.Live m.v) : Kept env s' made' := by
  intro m hm
  obtain ⟨-, hview, hmeaning⟩ := h m (hsub.subset hm)
  obtain ⟨-, hview'⟩ := hgo m.v (hlive m hm)
  exact ⟨hlive m hm, hview'.trans hview, hmeaning⟩

theorem Sound.refupval (h : Sound s) {v : Vtr} (hv : s.Live v) (hup : s.refupval v = .ok s') :
    Sound s' ∧ Shows s s' := by
  cases v with
  | quickint q =>
    cases hup
    exact ⟨h, fun _ hv => ⟨hv, rfl⟩⟩
  | pointer a =>
    simp only [Rtx.refupval] at hup
    split at hup
    · cases hup
    rename_i cell hmem
    cases hup
    split
    · exact ⟨h, fun _ hv => ⟨hv, rfl⟩⟩
    · rename_i hstat
      obtain ⟨hsound, -, hshows⟩ := h.put_ref hmem (by simpa using hstat) hv.2 (cell.ref + 1)
      exact ⟨hsound, hshows⟩

theorem Reach.kept (h : Reach env Construct.Plain s made) : Sound s ∧ Kept env s made := by
  induction h with
  | init => exact ⟨sound_open, by rintro m ⟨⟩⟩
  | make _ hplain hmake hview ih =>
    obtain ⟨hsound, hkept⟩ := ih
    obtain ⟨_, _, hmake', hsound', hkeeps, hnew⟩ := hsound.make env hplain
    obtain ⟨rfl, rfl⟩ := Prod.mk.inj (Except.ok.inj (hmake'.symm.trans hmake))
    obtain ⟨hlive, _, hview', hmeaning⟩ := hnew _ rfl
    obtain rfl := Option.some.inj (hview'.symm.trans hview)
    refine ⟨hsound', List.forall_mem_cons.2 ⟨⟨hlive, hview, ?_⟩, hkept.shows hkeeps.shows⟩⟩
    rintro _ ⟨⟩
    exact hmeaning
  | look _ hlive hview ih => exact ⟨ih.1, List.forall_mem_cons.2 ⟨⟨hlive, hview, nofun⟩, ih.2⟩⟩
  | refuse _ hplain hmake ih =>
    obtain ⟨hsound, hkept⟩ := ih
    obtain ⟨_, _, hmake', hsound', hkeeps, -⟩ := hsound.make env hplain
    obtain ⟨rfl, -⟩ := Prod.mk.inj (Except.ok.inj (hmake'.symm.trans hmake))
    exact ⟨hsound', hkept.shows hkeeps.shows⟩
  | refup _ hlive hup ih =>
    obtain ⟨hsound, hkept⟩ := ih
    obtain ⟨hsound', hshows⟩ := hsound.refupval hlive hup
    exact ⟨hsound', hkept.shows hshows⟩
  | refdown _ _ hdown hsub hlive ih =>
    obtain ⟨hsound, hkept⟩ := ih
    obtain ⟨hsound', hgo⟩ := hsound.refdownvals hdown
    exact ⟨hsound', hkept.letsGo hgo hsub hlive⟩

/-- Every value that was made is what it was and what it was to be, values compare as they did
when they were made, and another value can be made and looked at. -/
theorem Reach.compares_as_made (h : Reach env Construct.Plain s made) :
    (∀ m ∈ made, s.view m.v = some m.view ∧
        ∀ c ∈ m.construct, ∀ w, c.meaning env = some w → m.view = w) ∧
      (∀ l ∈ made, ∀ r ∈ made, ∀ opt grant op,
        s.cmpVal opt grant op l.v r.v = cmpView opt grant op l.view r.view) ∧
      ∀ c, c.Plain → ∃ s' v, s.make env c = .ok (s', v) ∧
        ∀ u, v = some u → ∃ w, s'.view u = some w := by
  obtain ⟨hsound, hkept⟩ := h.kept
  refine ⟨fun m hm => (hkept m hm).2, ?_, ?_⟩
  · intro l hl r hr opt grant op
    rw [cmpVal, (hkept l hl).2.1, (hkept r hr).2.1]
  · intro c hc
    obtain ⟨s', v, hmake, -, -, hnew⟩ := hsound.make env hc
    refine ⟨s', v, hmake, fun u hu => ?_⟩
    obtain ⟨-, w, hview, -⟩ := hnew u hu
    exact ⟨w, hview⟩

end Rtx

def Mmgr.refusing : Mmgr where
  alloc _ _ _ := none
  unused := by rintro _ _ _ _ ⟨⟩
  grant _ := false
  wcs bytes := bytes.map UInt8.toUInt32

def Mmgr.sparse : Mmgr where
  alloc calls used n :=
    if ∀ i < n, used (1000 * (calls + 1) + i) = false then some (1000 * (calls + 1)) else none
  unused := by
    intro calls used n a halloc
    split at halloc
    · rename_i hfree
      cases halloc
      exact hfree
    · cases halloc
  grant _ := true
  wcs bytes := bytes.map UInt8.toUInt32

def Env.ints (mm : Mmgr) : Env Int64 where
  mm := mm
  ctype := Ctype.ascii
  strip := false
  flt := Flt.ints

namespace Rtx

/-- A numeric string is made, the empty string, and a map with a string in it. -/
theorem Reach.compares_as_made_map :
    ∃ s made, Reach (Env.ints .sparse) Construct.Plain s made ∧
      made = [⟨none, .pointer 4000, ⟨0, .str [120]⟩⟩,
        ⟨some (.mapData [([107], .str [120])]), .pointer 2000,
          ⟨0, .map [([107], .pointer 4000)]⟩⟩,
        ⟨some (.str (.text [])), .pointer valZls, ⟨0, .str []⟩⟩,
        ⟨some (.nstr ['7'.val]), .pointer 1000, ⟨1, .str ['7'.val]⟩⟩] ∧
      s.view (.pointer 1000) = some ⟨1, .str ['7'.val]⟩ ∧
      s.cmpVal Opt.ints true .eq (.pointer valZls) (.pointer 1000) = .ok (some (-1)) := by
  have hnstr : Reach (Env.ints .sparse) Construct.Plain
      ((Rtx.open.called.init 1000 (.str 1 ('7'.val :: List.replicate 15 0))).put 1000
        ⟨0, false, 1, .str 1 ('7'.val :: List.replicate 15 0)⟩)
      [⟨some (.nstr ['7'.val]), .pointer 1000, ⟨1, .str ['7'.val]⟩⟩] :=
    .make .init (by simp [Construct.Plain]) (by rfl) (by rfl)
  have hstr := hnstr.make (c := .str (.text [])) (v := .pointer valZls) (w := ⟨0, .str []⟩) trivial
    (by rfl) (by rfl)
  have hmap := hstr.make (c := .mapData [([107], .str [120])]) (v := .pointer 2000)
    (w := ⟨0, .map [([107], .pointer 4000)]⟩) trivial (by rfl) (by rfl)
  have hlook := hmap.look (v := .pointer 4000) (w := ⟨0, .str [120]⟩)
    ⟨by rfl, by rintro ⟨p, hp⟩; cases hp⟩ (by rfl)
  obtain ⟨hview, hcmp, -⟩ := hlook.compares_as_made
  refine ⟨_, _, hlook, rfl,
    (hview ⟨some (.nstr ['7'.val]), .pointer 1000, ⟨1, .str ['7'.val]⟩⟩ (by simp)).1, ?_⟩
  refine (hcmp ⟨some (.str (.text [])), .pointer valZls, ⟨0, .str []⟩⟩ (by simp)
    ⟨some (.nstr ['7'.val]), .pointer 1000, ⟨1, .str ['7'.val]⟩⟩ (by simp) Opt.ints true
    .eq).trans ?_
  rfl

/-- A numeric string made of the empty string makes a number of the empty string. -/
theorem not_compares_as_made_empty_string :
    ∃ s made, Reach (Env.ints .refusing) (fun _ => True) s made ∧
      (∃ m ∈ made, s.view m.v ≠ some m.view) ∧
      ∃ l ∈ made, ∃ r ∈ made, s.cmpVal Opt.ints true .eq l.v r.v = .ok (some 0) ∧
        cmpView Opt.ints true .eq l.view r.view = .ok (some 1) := by
  have hstr : Reach (Env.ints .refusing) (fun _ => True) Rtx.open
      [⟨some (.str (.text [])), .pointer valZls, ⟨0, .str []⟩⟩] :=
    .make .init trivial (by rfl) (by rfl)
  have hint := hstr.make (c := .int 0) (v := .quickint 1) (w := ⟨0, .int 0⟩) trivial
    (by rfl) (by rfl)
  have hnstr : Reach (Env.ints .refusing) (fun _ => True)
      (Rtx.open.put valZls ⟨0, true, 1, .str 0 [0]⟩)
      [⟨some (.nstr []), .pointer valZls, ⟨1, .str []⟩⟩, ⟨some (.int 0), .quickint 1, ⟨0, .int 0⟩⟩,
        ⟨some (.str (.text [])), .pointer valZls, ⟨0, .str []⟩⟩] :=
    .make hint trivial (by rfl) (by rfl)
  refine ⟨_, _, hnstr, ⟨⟨some (.str (.text [])), .pointer valZls, ⟨0, .str []⟩⟩, by simp, ?_⟩,
    ⟨some (.int 0), .quickint 1, ⟨0, .int 0⟩⟩, by simp,
    ⟨some (.str (.text [])), .pointer valZls, ⟨0, .str []⟩⟩, by simp, ?_, ?_⟩
  · rw [view, put_mem_self]
    simp [Cell.view, Body.content]
  · rfl
  · rfl

end Rtx

end Qse.Awk
