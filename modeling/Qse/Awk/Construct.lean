import Mathlib.Data.List.Pairwise
import Qse.Awk.Release

/-!
# Making values

Every function that makes a value takes one that is not in use, but for the static values.
-/

open List Option

namespace Qse.Awk

structure Env (F : Type) where
  mm : Mmgr
  ctype : Ctype
  /-- `QSE_AWK_STRIPSTRSPC` -/
  strip : Bool
  flt : Flt F

inductive Construct (F : Type) where
  | nil
  | int (v : Int64)
  | flt (v : F)
  | str (str : CStr)
  | mbsStr (mbs : List UInt8)
  | str2 (str1 str2 : List UInt32)
  | nstr (str : List UInt32)
  | mbs (mbs : List UInt8)
  | rex (str : List UInt32) (code : ℕ × ℕ)
  | map
  | mapData (data : List (List UInt32 × MapData F))
  | ref (id adr : ℕ)
  | fn (f : ℕ)

variable {F : Type}

def Rtx.make (env : Env F) (s : Rtx F) : Construct F → Except Stop (Rtx F × Option Vtr)
  | .nil => .ok (s, some (.pointer valNil))
  | .int v => .ok (s.makeintval env.mm v)
  | .flt v => .ok (s.makefltval env.mm v)
  | .str str => s.makestrvalwithcstr env.mm str
  | .mbsStr mbs => s.makestrvalwithmbs env.mm mbs
  | .str2 str1 str2 => s.makestrval2 env.mm str1 str2
  | .nstr str => s.makenstrvalwithcstr env.mm env.ctype env.strip env.flt str
  | .mbs mbs => .ok (s.makembsval env.mm mbs)
  | .rex str code => .ok (s.makerexval env.mm str code)
  | .map => .ok (s.makemapval env.mm)
  | .mapData data => s.makemapvalwithdata env.mm data
  | .ref id adr => .ok (s.makerefval env.mm id adr)
  | .fn f => .ok (s.makefunval env.mm f)

/-- The string that is to be a numeric string, if it is one, is not empty, and the strings that
are put together are not longer than a class can tell. -/
def Construct.Plain : Construct F → Prop
  | .nstr text => text ≠ []
  | .str2 text1 text2 => text1.length + text2.length < 2 ^ 36
  | _ => True

def Construct.meaning (env : Env F) : Construct F → Option (View F)
  | .nil => some ⟨0, .nil⟩
  | .int v => some ⟨0, .int v⟩
  | .flt v => some ⟨0, .flt v⟩
  | .str (.text text) => some ⟨0, .str text⟩
  | .str (.null len) => if len = 0 then some ⟨0, .str []⟩ else none
  | .mbsStr bytes => some ⟨0, .str (env.mm.wcs bytes)⟩
  | .str2 text1 text2 => some ⟨0, .str (text1 ++ text2)⟩
  | .nstr text =>
    some ⟨((strtonum env.ctype env.strip env.flt true 0 text).map Rtx.nstrOf).getD 0, .str text⟩
  | .mbs bytes => some ⟨0, .mbs bytes⟩
  | .rex text code => some ⟨0, .rex text code⟩
  | .map => some ⟨0, .map []⟩
  | .mapData _ => none
  | .ref id adr => some ⟨0, .ref id adr⟩
  | .fn f => some ⟨0, .fn f⟩

namespace Rtx

variable {s s' : Rtx F} {a : Addr} {body : Body F} {env : Env F} {mm : Mmgr}

/-! ## Outcomes -/

/-- What is promised of a function that makes a value: what is in use is left alone, and the
value is in use and reads as it should. -/
def Promise (s s' : Rtx F) (meaning : Option (View F)) (v : Option Vtr) : Prop :=
  Sound s' ∧ Keeps s s' ∧ ∀ u, v = some u → s'.Live u ∧
    ∃ w, s'.view u = some w ∧ ∀ w', meaning = some w' → w = w'

theorem Outcome.promise {v : Option Vtr} {content : Content F} (h : Outcome s s' body v)
    (hcontent : body.content = some content) : Promise s s' (some ⟨0, content⟩) v := by
  cases v with
  | none => exact ⟨h.1, h.2, by rintro u ⟨⟩⟩
  | some u =>
    obtain ⟨a, rfl, hmakes⟩ := h
    refine ⟨hmakes.sound, hmakes.keeps, ?_⟩
    rintro _ ⟨⟩
    refine ⟨hmakes.live, ⟨0, content⟩, ?_, fun _ hw => some.inj hw⟩
    rw [view, hmakes.mem]
    simp [Cell.view, hcontent]

theorem Sound.promise_same {u : Vtr} {w : View F} (h : Sound s) (hlive : s.Live u)
    (hview : s.view u = some w) : Promise s s (some w) (some u) := by
  refine ⟨h, .refl s, ?_⟩
  rintro _ ⟨⟩
  exact ⟨hlive, w, hview, fun _ hw => some.inj hw⟩

theorem Sound.live_static (h : Sound s) {cell : Cell F} (hmem : s.mem a = some cell)
    (hstat : cell.stat = true) : s.Live (.pointer a) := by
  refine ⟨by rw [used, hmem]; rfl, ?_⟩
  rintro ⟨p, hp⟩
  obtain ⟨c, hc, hnot, -⟩ := h.spare p a hp
  rw [hmem] at hc
  cases hc
  rw [hstat] at hnot
  cases hnot

theorem Sound.promise_zls (h : Sound s) :
    Promise s s (some ⟨0, .str []⟩) (some (.pointer valZls)) :=
  h.promise_same (h.live_static h.zls rfl) (by
    rw [view, h.zls]
    rfl)

theorem Sound.promise_intval (h : Sound s) (v : Int64) :
    Promise s (s.makeintval mm v).1 (some ⟨0, .int v⟩) (s.makeintval mm v).2 := by
  rw [makeintval]
  split
  · rename_i hrange
    refine h.promise_same trivial ?_
    rw [view, vtrToQuickint_quickintToVtr hrange]
  · exact (h.outcome_takeSlot (hasRoom_of_ne (by simp)) (by simp)).promise rfl

theorem StrOutcome.promise (env : Env F) {str : CStr} {v : Option Vtr} (h : StrOutcome s s' str v) :
    Promise s s' ((Construct.str str).meaning env) v := by
  obtain ⟨block, houtcome, htext⟩ := h
  obtain ⟨hsound, hkeeps, hmade⟩ := houtcome.promise rfl
  refine ⟨hsound, hkeeps, fun u hu => ?_⟩
  obtain ⟨hlive, _, hview, hmeaning⟩ := hmade u hu
  obtain rfl := hmeaning _ rfl
  refine ⟨hlive, _, hview, fun w hw => ?_⟩
  cases str with
  | text text =>
    cases hw
    rw [CStr.len, htext text rfl (by simp [hu])]
  | null len =>
    simp only [Construct.meaning] at hw
    split at hw
    · rename_i hlen
      cases hw
      rw [CStr.len, hlen, take_zero]
    · cases hw

theorem Sound.promise_cstr (env : Env F) (h : Sound s) (str : CStr) : ∃ s' v,
    s.makestrvalwithcstr env.mm str = .ok (s', v) ∧
      Promise s s' ((Construct.str str).meaning env) v := by
  rw [makestrvalwithcstr]
  by_cases hlen : str.len = 0
  · refine ⟨s, some (.pointer valZls), if_pos hlen, ?_⟩
    have hempty : (Construct.str str).meaning env = some ⟨0, .str []⟩ := by
      cases str with
      | text text =>
        rw [eq_nil_of_length_eq_zero hlen]
        rfl
      | null len => exact if_pos hlen
    rw [hempty]
    exact h.promise_zls
  · obtain ⟨s', v, hmake, houtcome⟩ := h.makeStr env.mm str (suits_div str.len)
    exact ⟨s', v, (if_neg hlen).trans hmake, houtcome.promise env⟩

theorem Makes.put (h : Makes s s' a body) (cell : Cell F) (hroom : HasRoom cell) :
    Sound (s'.put a cell) ∧ Keeps s (s'.put a cell) ∧ (s'.put a cell).Live (.pointer a) :=
  ⟨h.sound.put h.mem rfl h.live.2 hroom,
    h.keeps.sameBut (sameBut_put s' a cell) (by rintro _ rfl; exact h.fresh),
    by rw [used, put_mem_self]; rfl, h.live.2⟩

theorem Sound.promise_nstr (h : Sound s) {text : List UInt32} (hne : text ≠ []) : ∃ s' v,
    s.makenstrvalwithcstr env.mm env.ctype env.strip env.flt text = .ok (s', v) ∧
      Promise s s' ((Construct.nstr text).meaning env) v := by
  have hlen : ¬(CStr.text text).len = 0 := by simpa [CStr.len] using hne
  obtain ⟨s₁, v, hmake, block, houtcome, htext⟩ :=
    h.makeStr env.mm (.text text) (suits_div _)
  have hcstr : s.makestrvalwithcstr env.mm (.text text) = .ok (s₁, v) :=
    (if_neg hlen).trans hmake
  simp only [makenstrvalwithcstr, hcstr, ok_bind, Construct.meaning]
  cases v with
  | none =>
    obtain ⟨hsound, hkeeps⟩ := houtcome
    cases strtonum env.ctype env.strip env.flt true 0 text with
    | none | some num => exact ⟨s₁, none, rfl, hsound, hkeeps, by rintro u ⟨⟩⟩
  | some u =>
    obtain ⟨a, rfl, hmakes⟩ := houtcome
    have hread : block.take text.length = text := htext text rfl (by simp)
    cases strtonum env.ctype env.strip env.flt true 0 text with
    | none =>
      refine ⟨s₁, _, rfl, hmakes.sound, hmakes.keeps, ?_⟩
      rintro _ ⟨⟩
      refine ⟨hmakes.live, _, ?_, fun _ hw => some.inj hw⟩
      rw [view, hmakes.mem]
      simp [Cell.view, Body.content, CStr.len, hread]
    | some num =>
      obtain ⟨hsound, hkeeps, hlive⟩ := hmakes.put
        ⟨0, false, nstrOf num, .str (CStr.text text).len block⟩
        fun len block hbody => hmakes.sound.room a _ hmakes.mem rfl len block hbody
      have hmark : s₁.mark (nstrOf num) (some (.pointer a)) =
          s₁.put a ⟨0, false, nstrOf num, .str (CStr.text text).len block⟩ := by
        simp only [mark, hmakes.mem]
      refine ⟨_, _, rfl, ?_⟩
      rw [hmark]
      refine ⟨hsound, hkeeps, ?_⟩
      rintro _ ⟨⟩
      refine ⟨hlive, _, ?_, fun _ hw => some.inj hw⟩
      rw [view, put_mem_self]
      simp [Cell.view, Body.content, CStr.len, hread]

/-! ## Maps -/

theorem Sound.outcome_makemapval (mm : Mmgr) (h : Sound s) :
    Outcome s (s.makemapval mm).1 (.map []) (s.makemapval mm).2 := by
  have halloc : Outcome s (s.alloc mm (.map [])).1 (.map []) (s.alloc mm (.map [])).2 :=
    h.outcome_alloc (hasRoom_of_ne (by simp))
  rw [makemapval]
  revert halloc
  obtain ⟨s₁, v⟩ := s.alloc mm (.map [])
  intro halloc
  cases v with
  | none => exact halloc
  | some v =>
    obtain ⟨a, rfl, hmakes⟩ := halloc
    dsimp only
    split
    · exact ⟨a, rfl, hmakes.sound.called, hmakes.keeps, hmakes.fresh, hmakes.live, hmakes.mem⟩
    · refine ⟨hmakes.sound.called.freemem hmakes.mem rfl hmakes.live.2, ?_⟩
      exact hmakes.keeps.sameBut (sameBut_freemem s₁ a) (by rintro _ rfl; exact hmakes.fresh)

/-- The value of an item is a small integer, the empty string, or new and no map. -/
def NewData (s s' : Rtx F) : Vtr → Prop
  | .quickint _ => True
  | .pointer b => b = valZls ∨ ∃ body, Makes s s' b body ∧ ∀ pairs, body ≠ .map pairs

theorem Sound.makeData (mm : Mmgr) (h : Sound s) (item : MapData F) : ∃ s' v,
    s.makeData mm item = .ok (s', v) ∧ Sound s' ∧ Keeps s s' ∧
      ∀ u, v = some u → NewData s s' u := by
  have hcstr {s₁ : Rtx F} (h₁ : Sound s₁) (hkeeps₁ : Keeps s s₁)
      (hlive : ∀ b, s.Live (.pointer b) → s₁.Live (.pointer b)) (str : CStr) : ∃ s' v,
      s₁.makestrvalwithcstr mm str = .ok (s', v) ∧ Sound s' ∧ Keeps s s' ∧
        ∀ u, v = some u → NewData s s' u := by
    by_cases hlen : str.len = 0
    · refine ⟨s₁, _, if_pos hlen, h₁, hkeeps₁, ?_⟩
      rintro _ ⟨⟩
      exact .inl rfl
    obtain ⟨s', v, hmake, block, houtcome, -⟩ := h₁.makeStr mm str (suits_div str.len)
    refine ⟨s', v, (if_neg hlen).trans hmake, ?_⟩
    cases v with
    | none => exact ⟨houtcome.1, hkeeps₁.trans houtcome.2, by rintro u ⟨⟩⟩
    | some u =>
      obtain ⟨b, rfl, hmakes⟩ := houtcome
      refine ⟨hmakes.sound, hkeeps₁.trans hmakes.keeps, ?_⟩
      rintro _ ⟨⟩
      exact .inr ⟨_, ⟨hmakes.sound, hkeeps₁.trans hmakes.keeps,
        fun hb => hmakes.fresh (hlive b hb), hmakes.live, hmakes.mem⟩, by simp⟩
  have hslot {p : Pool} {body : Body F} (hp : ∀ i, p ≠ .scache i)
      (hstr : ∀ len block, body ≠ .str len block) (hmap : ∀ pairs, body ≠ .map pairs) :
      Sound (s.takeSlot mm p body).1 ∧ Keeps s (s.takeSlot mm p body).1 ∧
        ∀ u, (s.takeSlot mm p body).2 = some u → NewData s (s.takeSlot mm p body).1 u := by
    have houtcome : Outcome s (s.takeSlot mm p body).1 body (s.takeSlot mm p body).2 :=
      h.outcome_takeSlot (hasRoom_of_ne hstr) hp
    revert houtcome
    obtain ⟨s', v⟩ := s.takeSlot mm p body
    intro houtcome
    cases v with
    | none => exact ⟨houtcome.1, houtcome.2, by rintro u ⟨⟩⟩
    | some u =>
      obtain ⟨b, rfl, hmakes⟩ := houtcome
      refine ⟨hmakes.sound, hmakes.keeps, ?_⟩
      rintro _ ⟨⟩
      exact .inr ⟨_, hmakes, hmap⟩
  cases item with
  | int v =>
    by_cases hrange : inQuickintRange v = true
    · refine ⟨s, _, congrArg Except.ok (if_pos hrange), h, .refl s, ?_⟩
      rintro _ ⟨⟩
      trivial
    · exact ⟨_, _, congrArg Except.ok (if_neg hrange), hslot (by simp) (by simp) (by simp)⟩
  | flt v => exact ⟨_, _, rfl, hslot (by simp) (by simp) (by simp)⟩
  | str text | cstr str => exact hcstr h (.refl s) (fun _ hb => hb) _
  | mbs mbs =>
    simp only [Rtx.makeData, makestrvalwithmbs]
    split
    · exact hcstr h.called (keeps_called s) (fun _ hb => hb) _
    · exact ⟨_, _, rfl, h.called, keeps_called s, by rintro u ⟨⟩⟩
  | other => exact ⟨_, _, rfl, h, .refl s, by rintro u ⟨⟩⟩

/-- A map at the address is filled: its values are referred to from it only. -/
structure Filling (s₀ s : Rtx F) (a : Addr) (pairs : List (List UInt32 × Vtr)) : Prop where
  sound : Sound s
  keeps : Keeps s₀ s
  fresh : ¬s₀.Live (.pointer a)
  live : s.Live (.pointer a)
  mem : s.mem a = some ⟨0, false, 0, .map pairs⟩
  keys : pairs.Pairwise fun p q => p.1 ≠ q.1
  held : ∀ p ∈ pairs, Held s p.2
  own : ∀ p ∈ pairs, ∀ b, PointsTo p.2 b → ¬s₀.Live (.pointer b)
  distinct : pairs.Pairwise fun p q => Distinct p.2 q.2

variable {s₀ : Rtx F} {pairs : List (List UInt32 × Vtr)}

theorem Makes.filling (h : Makes s₀ s a (.map [])) : Filling s₀ s a [] where
  sound := h.sound
  keeps := h.keeps
  fresh := h.fresh
  live := h.live
  mem := h.mem
  keys := .nil
  held := by simp
  own := by simp
  distinct := .nil

section

variable (h : Filling s₀ s a pairs)
include h

theorem Filling.points {p : List UInt32 × Vtr} (hp : p ∈ pairs)
    {b : Addr} (hb : PointsTo p.2 b) : Owned s b ∧ b ≠ a := by
  obtain ⟨hpb, hzls⟩ := hb
  have hheld := h.held p hp
  rw [hpb] at hheld
  have howned := hheld.resolve_left hzls
  refine ⟨howned, ?_⟩
  rintro rfl
  obtain ⟨-, body, hmem, -⟩ := howned
  rw [h.mem] at hmem
  cases hmem

theorem Filling.held_kept {p : List UInt32 × Vtr} (hp : p ∈ pairs)
    (hkept : ∀ b, PointsTo p.2 b → s.Live (.pointer b) →
      s'.Live (.pointer b) ∧ s'.mem b = s.mem b) : Held s' p.2 := by
  cases hv : p.2 with
  | quickint q => trivial
  | pointer b =>
    by_cases hzls : b = valZls
    · exact .inl hzls
    · obtain ⟨⟨hlive, body, hmem, hmap⟩, -⟩ := h.points hp ⟨hv, hzls⟩
      obtain ⟨hlive', hmem'⟩ := hkept b ⟨hv, hzls⟩ hlive
      exact .inr ⟨hlive', body, hmem'.trans hmem, hmap⟩

theorem Filling.sameBut {P : Addr → Prop} (hsound : Sound s')
    (hsame : SameBut P s s') (ha : ¬P a) (hfresh : ∀ b, P b → ¬s₀.Live (.pointer b))
    (hpairs : ∀ p ∈ pairs, ∀ b, PointsTo p.2 b → ¬P b) : Filling s₀ s' a pairs where
  sound := hsound
  keeps := h.keeps.sameBut hsame hfresh
  fresh := h.fresh
  live := (hsame.live ha).1.2 h.live
  mem := (hsame a ha).1.trans h.mem
  keys := h.keys
  held p hp := h.held_kept hp fun b hb hlive =>
    have hnot := hpairs p hp b hb
    ⟨(hsame.live hnot).1.2 hlive, (hsame b hnot).1⟩
  own := h.own
  distinct := h.distinct

theorem Filling.keep (hsound : Sound s') (hkeeps : Keeps s s') : Filling s₀ s' a pairs where
  sound := hsound
  keeps := h.keeps.trans hkeeps
  fresh := h.fresh
  live := (hkeeps a h.live).1
  mem := (hkeeps a h.live).2.trans h.mem
  keys := h.keys
  held _ hp := h.held_kept hp fun b _ hlive => hkeeps b hlive
  own := h.own
  distinct := h.distinct

theorem Filling.freeval :
    ∃ s', s.freeval pairs.length (.pointer a) = .ok s' ∧ Sound s' ∧ Keeps s₀ s' := by
  have hfree := h.sound.freemem h.mem rfl h.live.2
  have hheld : ∀ v ∈ pairs.map Prod.snd, Held (s.freemem a) v := by
    intro v hv
    obtain ⟨p, hp, rfl⟩ := mem_map.1 hv
    refine (sameBut_freemem s a).held (fun hpa => ?_) (h.held p hp)
    by_contra hzls
    exact (h.points hp ⟨hpa, hzls⟩).2 rfl
  obtain ⟨s', hdown, hsound, hsame⟩ := hfree.refdown_held hheld (pairwise_map.2 h.distinct)
  rw [length_map] at hdown
  refine ⟨s', ?_, hsound, ?_⟩
  · simp only [Rtx.freeval, h.mem, Bool.false_eq_true, if_false, freeCell]
    exact hdown
  · have hkeeps : Keeps s₀ (s.freemem a) :=
      h.keeps.sameBut (sameBut_freemem s a) (by rintro _ rfl; exact h.fresh)
    refine hkeeps.sameBut hsame ?_
    rintro b ⟨hb, hzls⟩
    obtain ⟨p, hp, hpb⟩ := mem_map.1 hb
    exact h.own p hp b ⟨hpb, hzls⟩

end

variable {v : Vtr}

theorem Filling.replace {P : Addr → Prop} {pairs' : List (List UInt32 × Vtr)}
    (h : Filling s₀ s a pairs) (hsound : Sound s') (hsame : SameBut P s s')
    (hfresh : ∀ b, P b → ¬s₀.Live (.pointer b)) (hlive : s'.Live (.pointer a))
    (hmem : s'.mem a = some ⟨0, false, 0, .map pairs'⟩) (hv : Held s' v)
    (hown : ∀ b, PointsTo v b → ¬s₀.Live (.pointer b))
    (hpairs : ∀ p ∈ pairs', (p ∈ pairs ∧ ∀ b, PointsTo p.2 b → ¬P b) ∨ p.2 = v)
    (hkeys : pairs'.Pairwise fun p q => p.1 ≠ q.1)
    (hdistinct : pairs'.Pairwise fun p q => Distinct p.2 q.2) : Filling s₀ s' a pairs' where
  sound := hsound
  keeps := h.keeps.sameBut hsame hfresh
  fresh := h.fresh
  live := hlive
  mem := hmem
  keys := hkeys
  held p hp := by
    rcases hpairs p hp with ⟨hold, hnot⟩ | rfl
    · exact h.held_kept hold fun b hb hblive =>
        ⟨(hsame.live (hnot b hb)).1.2 hblive, (hsame b (hnot b hb)).1⟩
    · exact hv
  own p hp b hb := by
    rcases hpairs p hp with ⟨hold, -⟩ | rfl
    · exact h.own p hold b hb
    · exact hown b hb
  distinct := hdistinct

theorem Filling.set (mm : Mmgr) (h : Filling s₀ s a pairs) (key : List UInt32) (hv : Unheld s v)
    (hown : ∀ b, PointsTo v b → ¬s₀.Live (.pointer b)) (hapart : ∀ p ∈ pairs, Distinct p.2 v) :
    (∃ s' pairs', s.setmapvalfld mm 1 a key v = .ok (s', true) ∧ Filling s₀ s' a pairs') ∨
      s.setmapvalfld mm 1 a key v = .ok (s.called, false) := by
  have hva {b : Addr} (hb : PointsTo v b) : b ≠ a := by
    obtain ⟨rfl, hzls⟩ := hb
    rintro rfl
    obtain ⟨-, body, hmem, hmap⟩ := hv.resolve_left hzls
    rw [h.mem] at hmem
    cases hmem
    exact hmap pairs rfl
  -- the new value as it is once the map has been written
  have hunheld {s₁ : Rtx F} {P : Addr → Prop} (hsame : SameBut P s s₁)
      (hP : ∀ b, PointsTo v b → ¬P b) : Unheld s₁ v := by
    cases v with
    | quickint q => trivial
    | pointer b =>
      by_cases hzls : b = valZls
      · exact .inl hzls
      · obtain ⟨hlive, body, hmem, hmap⟩ := hv.resolve_left hzls
        have hb := hP b ⟨rfl, hzls⟩
        exact .inr ⟨(hsame.live hb).1.2 hlive, body, (hsame b hb).1.trans hmem, hmap⟩
  have hput (pairs' : List (List UInt32 × Vtr)) :
      Sound (s.put a ⟨0, false, 0, .map pairs'⟩) ∧
        (s.put a ⟨0, false, 0, .map pairs'⟩).Live (.pointer a) :=
    ⟨h.sound.put h.mem rfl h.live.2 (hasRoom_of_ne (by simp)),
      by rw [used, put_mem_self]; rfl, h.live.2⟩
  simp only [setmapvalfld, h.mem]
  cases hfind : pairs.find? (·.1 = key) with
  | none =>
    have hnokey : ∀ p ∈ pairs, p.1 ≠ key := by simpa using hfind
    dsimp only
    split
    · left
      obtain ⟨hsound₁, hlive₁⟩ := hput (pairs ++ [(key, v)])
      have hsame₁ := sameBut_put s a ⟨0, false, 0, .map (pairs ++ [(key, v)])⟩
      obtain ⟨s', hup, hsound, hsame, hheld⟩ :=
        hsound₁.called.refup_one (hunheld hsame₁ fun b hb => hva hb)
      have hnot : ¬PointsTo v a := fun ha => hva ha rfl
      refine ⟨s', pairs ++ [(key, v)], ?_, h.replace (v := v) hsound
        ((hsame₁.mono (Q := fun b => b = a ∨ PointsTo v b) fun b hb => .inl hb).trans
          (hsame.mono fun b hb => .inr hb)) ?_ ((hsame.live hnot).1.2 hlive₁)
        ((hsame a hnot).1.trans (put_mem_self ..)) hheld hown ?_ ?_ ?_⟩
      · have hup' : (s.called.put a ⟨0, false, 0, .map (pairs ++ [(key, v)])⟩).refupval v =
            .ok s' := hup
        rw [hup']
        rfl
      · rintro b (rfl | hb)
        · exact h.fresh
        · exact hown b hb
      · intro p hp
        rcases mem_append.1 hp with hp | hp
        · refine .inl ⟨hp, fun b hb => ?_⟩
          rintro (rfl | hbv)
          · exact (h.points hp hb).2 rfl
          · exact hb.2 (hapart p hp b hb.1 hbv.1)
        · rw [mem_singleton.1 hp]
          exact .inr rfl
      · refine pairwise_append.2 ⟨h.keys, pairwise_singleton .., fun p hp q hq => ?_⟩
        rw [mem_singleton.1 hq]
        exact hnokey p hp
      · refine pairwise_append.2 ⟨h.distinct, pairwise_singleton .., fun p hp q hq => ?_⟩
        rw [mem_singleton.1 hq]
        exact hapart p hp
    · exact .inr rfl
  | some p =>
    obtain ⟨k, old⟩ := p
    have hp : (k, old) ∈ pairs := mem_of_find?_eq_some hfind
    have hkey : k = key := by simpa using find?_some hfind
    subst hkey
    have hheld := h.held _ hp
    left
    by_cases hsame : old = v
    · -- a value is in two places only if it needs no reference
      subst hsame
      have hfree : (∃ q, old = .quickint q) ∨ old = .pointer valZls := by
        cases old with
        | quickint q => exact .inl ⟨q, rfl⟩
        | pointer b => exact .inr (congrArg Vtr.pointer (hapart _ hp b rfl rfl))
      refine ⟨s, pairs, ?_, h⟩
      rcases hfree with ⟨q, rfl⟩ | rfl
      · simp only [if_true, refdownvalNofree, ok_bind, refupval]
      · simp only [if_true, refdownvalNofree, h.sound.zls, ok_bind, refupval]
    have hother {q : List UInt32 × Vtr} (hq : q ∈ pairs) (hqk : q.1 ≠ k) : Distinct q.2 old := by
      refine h.distinct.forall hq hp ?_
      rintro rfl
      exact hqk rfl
    have hpairs' : ∀ q ∈ pairs.map (fun q => if q.1 = k then (q.1, v) else q),
        (q ∈ pairs ∧ q.1 ≠ k) ∨ q = (k, v) := by
      intro q hq
      obtain ⟨r, hr, rfl⟩ := mem_map.1 hq
      by_cases hrk : r.1 = k
      · exact .inr (by rw [if_pos hrk, hrk])
      · rw [if_neg hrk]
        exact .inl ⟨hr, hrk⟩
    obtain ⟨hsound₁, hlive₁⟩ :=
      hput (pairs.map fun q : List UInt32 × Vtr => if q.1 = k then (q.1, v) else q)
    have hsame₁ := sameBut_put s a ⟨0, false, 0,
      .map (pairs.map fun q : List UInt32 × Vtr => if q.1 = k then (q.1, v) else q)⟩
    obtain ⟨s₂, hdown, hsound₂, hsame₂⟩ := hsound₁.refdown_one (v := old)
      (hsame₁.held (fun ha => by_contra fun hzls => (h.points hp ⟨ha, hzls⟩).2 rfl) hheld)
    have hto₂ : SameBut (fun b => b = a ∨ PointsTo old b) s s₂ :=
      (hsame₁.mono fun b hb => .inl hb).trans (hsame₂.mono fun b hb => .inr hb)
    obtain ⟨s', hup, hsound, hsame₃, hheld'⟩ := hsound₂.refup_one (v := v) <| hunheld hto₂ <| by
      rintro b hb (rfl | hold)
      · exact hva hb rfl
      · exact hb.2 (hapart _ hp b hold.1 hb.1)
    have hto : SameBut (fun b => (b = a ∨ PointsTo old b) ∨ PointsTo v b) s s' :=
      (hto₂.mono fun b hb => .inl hb).trans (hsame₃.mono fun b hb => .inr hb)
    have hnot : ¬PointsTo v a := fun ha => hva ha rfl
    have hnotold : ¬PointsTo old a := fun ha => (h.points hp ha).2 rfl
    refine ⟨s', _, ?_, h.replace (v := v) hsound hto ?_
      ((hsame₃.live hnot).1.2 ((hsame₂.live hnotold).1.2 hlive₁))
      ((hsame₃ a hnot).1.trans ((hsame₂ a hnotold).1.trans (put_mem_self ..))) hheld' hown
      ?_ ?_ ?_⟩
    · simp only [if_neg hsame, hdown, ok_bind, hup]
    · rintro b ((rfl | hb) | hb)
      · exact h.fresh
      · exact h.own _ hp b hb
      · exact hown b hb
    · intro q hq
      rcases hpairs' q hq with ⟨hold, hqk⟩ | rfl
      · refine .inl ⟨hold, fun b hb => ?_⟩
        rintro ((rfl | hbold) | hbv)
        · exact (h.points hold hb).2 rfl
        · exact hb.2 (hother hold hqk b hb.1 hbold.1)
        · exact hb.2 (hapart q hold b hb.1 hbv.1)
      · exact .inr rfl
    · refine pairwise_map.2 (h.keys.imp fun {q r} hqr => ?_)
      have hfst (q : List UInt32 × Vtr) : (if q.1 = k then (q.1, v) else q).1 = q.1 := by
        split <;> rfl
      rwa [hfst, hfst]
    · refine pairwise_map.2 ((h.distinct.and h.keys).imp_of_mem ?_)
      rintro q r hq hr ⟨hqr, hkeys⟩
      by_cases hqk : q.1 = k
      · have hrk : ¬r.1 = k := fun hrk => hkeys (hqk.trans hrk.symm)
        rw [if_pos hqk, if_neg hrk]
        exact Std.Symm.symm _ _ (hapart r hr)
      · rw [if_neg hqk]
        by_cases hrk : r.1 = k
        · rw [if_pos hrk]
          exact hapart q hq
        · rwa [if_neg hrk]

theorem Filling.newData (h : Filling s₀ s a pairs) (hsound : Sound s') (hkeeps : Keeps s s')
    (hv : NewData s s' v) :
    Filling s₀ s' a pairs ∧ Unheld s' v ∧ (∀ b, PointsTo v b → ¬s₀.Live (.pointer b)) ∧
      ∀ p ∈ pairs, Distinct p.2 v := by
  refine ⟨h.keep hsound hkeeps, ?_, ?_, ?_⟩
  · cases v with
    | quickint q => trivial
    | pointer b =>
      rcases hv with hzls | ⟨body, hmakes, hmap⟩
      · exact .inl hzls
      · exact .inr ⟨hmakes.live, body, hmakes.mem, hmap⟩
  · rintro b ⟨rfl, hzls⟩ hlive
    obtain ⟨body, hmakes, -⟩ := hv.resolve_left hzls
    exact hmakes.fresh (h.keeps b hlive).1
  · rintro p hp b hpb rfl
    by_contra hzls
    obtain ⟨body, hmakes, -⟩ := hv.resolve_left hzls
    exact hmakes.fresh (h.points hp ⟨hpb, hzls⟩).1.1

theorem Filling.fillMap (data : List (List UInt32 × MapData F)) :
    ∀ {s : Rtx F} {pairs : List (List UInt32 × Vtr)}, Filling s₀ s a pairs → ∃ s' v,
      Rtx.fillMap mm a s data = .ok (s', v) ∧ Promise s₀ s' none v := by
  induction data with
  | nil =>
    intro s pairs h
    refine ⟨s, some (.pointer a), rfl, h.sound, h.keeps, ?_⟩
    rintro _ ⟨⟩
    refine ⟨h.live, ⟨0, .map pairs⟩, ?_, by rintro _ ⟨⟩⟩
    rw [view, h.mem]
    rfl
  | cons head data ih =>
    obtain ⟨key, item⟩ := head
    intro s pairs h
    -- without memory for the item or its pair, the map is freed with what is in it
    have hfail {s₁ : Rtx F} (h₁ : Filling s₀ s₁ a pairs) : ∃ s',
        s₁.freeval pairs.length (.pointer a) = .ok s' ∧ Promise s₀ s' none none := by
      obtain ⟨s', hfree, hsound, hkeeps⟩ := h₁.freeval
      exact ⟨s', hfree, hsound, hkeeps, by rintro u ⟨⟩⟩
    obtain ⟨s₁, made, hmake, hsound₁, hkeeps₁, hnew⟩ := h.sound.makeData mm item
    simp only [Rtx.fillMap, h.mem, hmake, ok_bind]
    cases made with
    | none =>
      obtain ⟨s', hfree, hpromise⟩ := hfail (h.keep hsound₁ hkeeps₁)
      exact ⟨s', none, by simp only [hfree, ok_bind], hpromise⟩
    | some v =>
      obtain ⟨h₁, hunheld, hown, hapart⟩ := h.newData hsound₁ hkeeps₁ (hnew v rfl)
      rcases h₁.set mm key hunheld hown hapart with ⟨s₂, pairs', hset, h₂⟩ | hset
      · simp only [hset, ok_bind, if_true]
        exact ih h₂
      have hunheld' : Unheld s₁.called v := by
        cases v <;> exact hunheld
      have hcalled := h₁.keep hsound₁.called (keeps_called s₁)
      obtain ⟨s₂, hfreev, hsound₂, hsame₂⟩ := hsound₁.called.freeval_one hunheld'
      have h₂ : Filling s₀ s₂ a pairs := hcalled.sameBut hsound₂ hsame₂
        (by
          rintro ⟨rfl, hzls⟩
          obtain ⟨-, body, hmem, hmap⟩ := hunheld.resolve_left hzls
          rw [h₁.mem] at hmem
          cases hmem
          exact hmap pairs rfl)
        hown
        fun p hp b hb hbv => hb.2 (hapart p hp b hb.1 hbv.1)
      obtain ⟨s', hfree, hpromise⟩ := hfail h₂
      refine ⟨s', none, ?_, hpromise⟩
      simp only [hset, ok_bind, Bool.false_eq_true, if_false, hfreev, hfree]

theorem Sound.makemapvalwithdata (h : Sound s) (data : List (List UInt32 × MapData F)) :
    ∃ s' v, s.makemapvalwithdata mm data = .ok (s', v) ∧ Promise s s' none v := by
  have houtcome := h.outcome_makemapval mm
  rw [Rtx.makemapvalwithdata]
  revert houtcome
  obtain ⟨s₁, v⟩ := s.makemapval mm
  intro houtcome
  cases v with
  | none => exact ⟨s₁, none, rfl, houtcome.1, houtcome.2, by rintro u ⟨⟩⟩
  | some v =>
    obtain ⟨a, rfl, hmakes⟩ := houtcome
    exact hmakes.filling.fillMap data

theorem Sound.promise_alloc (h : Sound s) {body : Body F} {content : Content F}
    (hroom : HasRoom ⟨0, false, 0, body⟩) (hcontent : body.content = some content) :
    Promise s (s.alloc mm body).1 (some ⟨0, content⟩) (s.alloc mm body).2 :=
  (h.outcome_alloc hroom).promise hcontent

theorem Sound.promise_refval (h : Sound s) (id adr : ℕ) :
    Promise s (s.makerefval mm id adr).1 (some ⟨0, .ref id adr⟩) (s.makerefval mm id adr).2 := by
  have hroom : HasRoom (⟨0, false, 0, .ref id adr⟩ : Cell F) := hasRoom_of_ne (by simp)
  rw [makerefval]
  cases hpool : s.pool .rcache with
  | nil => exact h.promise_alloc hroom rfl
  | cons a free =>
    have houtcome : Outcome s ((s.setPool .rcache free).init a (.ref id adr)) (.ref id adr)
        (some (.pointer a)) := ⟨a, rfl, h.makes_take hpool hroom⟩
    exact houtcome.promise rfl

theorem Sound.make (env : Env F) (h : Sound s) {c : Construct F} (hc : c.Plain) :
    ∃ s' v, s.make env c = .ok (s', v) ∧ Promise s s' (c.meaning env) v := by
  cases c with
  | nil =>
    refine ⟨s, _, rfl, h.promise_same (h.live_static h.nil rfl) ?_⟩
    rw [view, h.nil]
    rfl
  | int v => exact ⟨_, _, rfl, h.promise_intval v⟩
  | flt v =>
    exact ⟨_, _, rfl, (h.outcome_takeSlot (hasRoom_of_ne (by simp)) (by simp)).promise rfl⟩
  | str str => exact h.promise_cstr env str
  | mbsStr bytes =>
    simp only [Rtx.make, makestrvalwithmbs]
    split
    · obtain ⟨s', v, hmake, hpromise⟩ := h.called.promise_cstr env
        (.text (env.mm.wcs bytes))
      exact ⟨s', v, hmake, hpromise.1, (keeps_called s).trans hpromise.2.1, hpromise.2.2⟩
    · exact ⟨_, _, rfl, h.called, keeps_called s, by rintro u ⟨⟩⟩
  | str2 text1 text2 =>
    have hlen : (CStr.text (text1 ++ text2)).len = text1.length + text2.length :=
      length_append
    obtain ⟨s', v, hmake, houtcome⟩ := h.makeStr env.mm (.text (text1 ++ text2))
      (by rw [hlen]; exact suits_intClass hc)
    exact ⟨s', v, hmake, houtcome.promise env⟩
  | nstr text => exact h.promise_nstr hc
  | mbs bytes =>
    simp only [Rtx.make, makembsval]
    split
    · rename_i hlen
      refine ⟨s, _, rfl, h.promise_same (h.live_static h.zlm rfl) ?_⟩
      rw [eq_nil_of_length_eq_zero hlen, view, h.zlm]
      rfl
    · exact ⟨_, _, rfl, h.promise_alloc (hasRoom_of_ne (by simp)) rfl⟩
  | rex text code | fn f => exact ⟨_, _, rfl, h.promise_alloc (hasRoom_of_ne (by simp)) rfl⟩
  | map => exact ⟨_, _, rfl, (h.outcome_makemapval env.mm).promise rfl⟩
  | mapData data => exact h.makemapvalwithdata data
  | ref id adr => exact ⟨_, _, rfl, h.promise_refval id adr⟩

end Rtx

end Qse.Awk
