import Qse.Awk.Compare

/-!
# Laws of the comparison operators

The six operators go by one order of the two values, unless memory for the text of one of them is
refused.
-/

namespace Qse.Awk

def cmpError : ℤ := -99

def CmpOp.holds : CmpOp → ℤ → Bool
  | .none, _ => false
  | .eq, n => n = 0
  | .ne, n => n ≠ 0
  | .gt, n => n > 0
  | .ge, n => n ≥ 0
  | .lt, n => n < 0
  | .le, n => n ≤ 0

def CmpOp.mirror : CmpOp → CmpOp
  | .none => .none
  | .eq => .eq
  | .ne => .ne
  | .gt => .lt
  | .ge => .le
  | .lt => .gt
  | .le => .ge

section Laws

variable {F : Type} (opt : Opt F)

/-- `eval_binop_eq`, `eval_binop_ne`, `eval_binop_gt`, `eval_binop_ge`, `eval_binop_lt` and
`eval_binop_le`. -/
def evalBinopCmp (grant : Bool) (op : CmpOp) (left right : View F) : Except Stop (Option Bool) :=
  (cmpView opt grant op left right).map (Option.map op.holds)

def numeric (ctype : Ctype) (nstr : ℕ) (text : List UInt32) : Bool :=
  (opt.ncmponstr || nstr != 0) && (strtonum ctype opt.strip opt.flt true 0 text).isSome

def lacksText (grant : Bool) (x y : View F) : Bool :=
  match x.content, y.content with
  | .int v, .str text =>
    !numeric opt opt.ctype y.nstr text && (valtostrdup grant (some (intToStr v))).isNone
  | .int v, .mbs text =>
    !numeric opt opt.mctype y.nstr (ofBytes text) &&
      (valtombsdup opt grant (some (intToStr v))).isNone
  | .str ls, .mbs _ => (valtombsdup opt grant (some ls)).isNone
  | _, _ => false

def Fails (grant : Bool) (x y : View F) : Bool := lacksText opt grant x y || lacksText opt grant y x

def IntMbs (x y : View F) : Prop :=
  (∃ v text, x.content = .int v ∧ y.content = .mbs text) ∨
    ∃ v text, y.content = .int v ∧ x.content = .mbs text

def View.IsScalar (x : View F) : Prop :=
  match x.content with
  | .nil => True
  | .int _ => True
  | .str _ => x.nstr ≤ 2
  | .mbs _ => True
  | _ => False

/-- What `x op y` is, or `y op x` -/
def result (mem : CmpOp → Bool → Bool) (x y : View F) (op : CmpOp) (swapped : Bool) :
    Except Stop (Option Bool) :=
  if swapped then evalBinopCmp opt (mem op swapped) op y x
  else evalBinopCmp opt (mem op swapped) op x y

/-- The six operators agree on two values, however memory is granted to each of them. -/
structure Agree (mem : CmpOp → Bool → Bool) (x y : View F) : Prop where
  error : ∀ op ≠ .none, ∀ swapped, ∃ r, result opt mem x y op swapped = .ok r ∧
    (r = none ↔ Fails opt (mem op swapped) x y = true)
  value : ∀ grant op n, cmpView opt grant op x y = .ok (some n) → n ≠ cmpError
  one : ∀ lt eq gt, result opt mem x y .lt false = .ok (some lt) →
    result opt mem x y .eq false = .ok (some eq) → result opt mem x y .gt false = .ok (some gt) →
    (lt = true ∧ eq = false ∧ gt = false) ∨ (lt = false ∧ eq = true ∧ gt = false) ∨
      (lt = false ∧ eq = false ∧ gt = true)
  le : ∀ le gt, result opt mem x y .le false = .ok (some le) →
    result opt mem x y .gt false = .ok (some gt) → le = !gt
  ge : ∀ ge lt, result opt mem x y .ge false = .ok (some ge) →
    result opt mem x y .lt false = .ok (some lt) → ge = !lt
  ne : ∀ ne eq, result opt mem x y .ne false = .ok (some ne) →
    result opt mem x y .eq false = .ok (some eq) → ne = !eq
  mirror : ∀ op ≠ .none, ∀ a b, result opt mem x y op false = .ok (some a) →
    result opt mem x y op.mirror true = .ok (some b) → a = b

def IsSign (n : ℤ) : Prop := n = -1 ∨ n = 0 ∨ n = 1

variable {opt} {toupper : UInt32 → UInt32} {s t : List UInt32} {v w : Int64} {f g : F}

theorem cmpInt_sign : IsSign (cmpInt v w) := by
  unfold cmpInt IsSign
  split
  · simp
  · split <;> simp

theorem cmpInt_swap : cmpInt w v = -cmpInt v w := by
  unfold cmpInt
  by_cases h₁ : v > w
  · have h₂ : ¬w > v := Int64.not_lt.2 (Int64.le_of_lt h₁)
    rw [if_pos h₁, if_neg h₂, if_pos h₁]
  · by_cases h₂ : w > v
    · rw [if_pos h₂, if_neg h₁, if_pos h₂]
      rfl
    · rw [if_neg h₂, if_neg h₁, if_neg h₁, if_neg h₂]
      rfl

theorem cmpFlt_sign : IsSign (cmpFlt opt f g) := by
  unfold cmpFlt IsSign
  split
  · simp
  · split <;> simp

theorem cmpFlt_swap (hgt : ∀ f g, opt.flt.gt f g = true → opt.flt.gt g f = false) :
    cmpFlt opt g f = -cmpFlt opt f g := by
  unfold cmpFlt
  cases h₁ : opt.flt.gt f g with
  | true => simp [hgt f g h₁]
  | false => cases h₂ : opt.flt.gt g f <;> simp

theorem xncmp_sign : IsSign (xncmp toupper s t) := by
  induction s generalizing t with
  | nil => cases t <;> simp [xncmp, IsSign]
  | cons c s ih =>
    cases t with
    | nil => simp [xncmp, IsSign]
    | cons d t =>
      rw [xncmp]
      split
      · simp [IsSign]
      · split
        · simp [IsSign]
        · exact ih

theorem xncmp_swap : xncmp toupper t s = -xncmp toupper s t := by
  induction s generalizing t with
  | nil => cases t <;> rfl
  | cons c s ih =>
    cases t with
    | nil => rfl
    | cons d t =>
      rw [xncmp, xncmp]
      by_cases h₁ : toupper c > toupper d
      · have h₂ : ¬toupper d > toupper c := UInt32.not_lt.2 (UInt32.le_of_lt h₁)
        rw [if_pos h₁, if_neg h₂, if_pos h₁]
      · by_cases h₂ : toupper d > toupper c
        · rw [if_pos h₂, if_neg h₁, if_pos h₂]
          rfl
        · rw [if_neg h₂, if_neg h₁, if_neg h₁, if_neg h₂, ih]

theorem cmpText_sign : IsSign (cmpText opt toupper s t) := xncmp_sign

theorem cmpIntNum_sign {num : Num F} : IsSign (cmpIntNum opt v num) := by
  cases num with
  | int l => exact cmpInt_sign
  | flt r => exact cmpFlt_sign

variable {n : ℤ} {grant : Bool} {op : CmpOp} {nx ny : ℕ} {text : List UInt8}

theorem IsSign.neg (h : IsSign n) : IsSign (-n) := by
  unfold IsSign at *
  omega

theorem IsSign.ne_error (h : IsSign n) : n ≠ cmpError := by
  unfold IsSign cmpError at *
  omega

/-! ## The order of two values -/

variable {x y : View F}

/-- The two values compare as `n` says, unless a text that is needed is not there. Between an
integer and a byte string, there is a result nevertheless. -/
structure Compares (opt : Opt F) (x y : View F) (n : ℤ) : Prop where
  value : ∀ grant op, Fails opt grant x y = false → cmpView opt grant op x y = .ok (some n)
  error : ∀ grant op, Fails opt grant x y = true → ¬IntMbs x y → cmpView opt grant op x y = .ok none
  wrong : ∀ grant op, Fails opt grant x y = true → IntMbs x y →
    ∃ m, IsSign m ∧ cmpView opt grant op x y = .ok (some m)

theorem fails_comm : Fails opt grant x y = Fails opt grant y x := Bool.or_comm ..

theorem cmpView_eq (hx : x.content.isMap = false)
    (hy : y.content.isMap = false) : cmpView opt grant op x y = cmpFunc opt grant op x y := by
  rw [cmpView, hx, hy, Bool.or_false, Bool.and_false]
  rfl

theorem compares_of_pure (hfails : ∀ grant, Fails opt grant x y = false)
    (hxy : ∀ grant op, cmpView opt grant op x y = .ok (some n))
    (hyx : ∀ grant op, cmpView opt grant op y x = .ok (some (-n))) :
    Compares opt x y n ∧ Compares opt y x (-n) := by
  have hfails' : ∀ grant, Fails opt grant y x = false := fun grant => by
    rw [fails_comm]
    exact hfails grant
  constructor
  · refine ⟨fun grant op _ => hxy grant op, fun grant op h => ?_, fun grant op h => ?_⟩
    · rw [hfails grant] at h
      cases h
    · rw [hfails grant] at h
      cases h
  · refine ⟨fun grant op _ => hyx grant op, fun grant op h => ?_, fun grant op h => ?_⟩
    · rw [hfails' grant] at h
      cases h
    · rw [hfails' grant] at h
      cases h

theorem compares_of_text (hpair : ¬IntMbs x y) (hxy : ∀ grant op, cmpView opt grant op x y =
      .ok (if Fails opt grant x y = true then none else some n))
    (hyx : ∀ grant op, cmpView opt grant op y x =
      .ok (if Fails opt grant x y = true then none else some (-n))) :
    Compares opt x y n ∧ Compares opt y x (-n) := by
  have hpair' : ¬IntMbs y x := fun h => hpair h.symm
  refine ⟨⟨fun grant op h => ?_, fun grant op h _ => ?_, fun _ _ _ h => absurd h hpair⟩,
    ⟨fun grant op h => ?_, fun grant op h _ => ?_, fun _ _ _ h => absurd h hpair'⟩⟩
  · rw [hxy, h]
    rfl
  · rw [hxy, h]
    rfl
  · rw [hyx, fails_comm, h]
    rfl
  · rw [hyx, fails_comm, h]
    rfl

theorem cmpIntStr_spec (opt : Opt F) (v : Int64) (nstr : ℕ) (t : List UInt32) :
    ∃ n, IsSign n ∧ ∀ grant, cmpIntStr opt grant v nstr t =
      if (!numeric opt opt.ctype nstr t && (valtostrdup grant (some
        (intToStr v))).isNone) = true then
        none else some n := by
  unfold cmpIntStr numeric
  by_cases hnum : opt.ncmponstr = true ∨ nstr ≠ 0
  · have hnum' : (opt.ncmponstr || nstr != 0) = true := by simpa using hnum
    simp only [if_pos hnum, hnum', Bool.true_and]
    cases hnumber : strtonum opt.ctype opt.strip opt.flt true 0 t with
    | some num => exact ⟨_, cmpIntNum_sign, fun grant => rfl⟩
    | none =>
      refine ⟨cmpText opt opt.towupper (intToStr v) t, cmpText_sign, fun grant => ?_⟩
      cases grant <;> rfl
  · have hnum' : (opt.ncmponstr || nstr != 0) = false := by simpa using hnum
    simp only [if_neg hnum, hnum', Bool.false_and]
    refine ⟨cmpText opt opt.towupper (intToStr v) t, cmpText_sign, fun grant => ?_⟩
    cases grant <;> rfl

theorem cmpText_intToStr (opt : Opt F) (v : Int64) (t : List UInt32) :
    ∃ n, IsSign n ∧ ∀ grant, (match valtombsdup opt grant (some (intToStr v)) with
      | some str0 => cmpText opt opt.tomupper str0 t
      | none => -1) =
        if (valtombsdup opt grant (some (intToStr v))).isNone = true then -1 else n := by
  cases hmbs : opt.mbs (intToStr v) with
  | none =>
    refine ⟨0, .inr (.inl rfl), fun grant => ?_⟩
    cases grant <;> simp [valtombsdup, valtostrdup, hmbs]
  | some str0 =>
    refine ⟨cmpText opt opt.tomupper str0 t, xncmp_sign, fun grant => ?_⟩
    cases grant <;> simp [valtombsdup, valtostrdup, hmbs]

theorem cmpIntMbs_spec (opt : Opt F) (v : Int64) (nstr : ℕ) (t : List UInt32) :
    ∃ n, IsSign n ∧ ∀ grant, cmpIntMbs opt grant v nstr t =
      if (!numeric opt opt.mctype nstr t && (valtombsdup opt grant (some
        (intToStr v))).isNone) = true
        then -1 else n := by
  obtain ⟨n, hsign, htext⟩ := cmpText_intToStr opt v t
  unfold cmpIntMbs numeric
  by_cases hnum : opt.ncmponstr = true ∨ nstr ≠ 0
  · have hnum' : (opt.ncmponstr || nstr != 0) = true := by simpa using hnum
    simp only [if_pos hnum, hnum', Bool.true_and]
    cases hnumber : strtonum opt.mctype opt.strip opt.flt true 0 t with
    | some num => exact ⟨_, cmpIntNum_sign, fun grant => rfl⟩
    | none => exact ⟨n, hsign, htext⟩
  · have hnum' : (opt.ncmponstr || nstr != 0) = false := by simpa using hnum
    simp only [if_neg hnum, hnum', Bool.false_and]
    exact ⟨n, hsign, htext⟩

theorem cmpStrMbs_spec (opt : Opt F) (s t : List UInt32) :
    ∃ n, IsSign n ∧ ∀ grant, cmpStrMbs opt grant s t =
      if (valtombsdup opt grant (some s)).isNone = true then none else some n := by
  cases hmbs : opt.mbs s with
  | none =>
    refine ⟨0, .inr (.inl rfl), fun grant => ?_⟩
    cases grant <;> simp [cmpStrMbs, valtombsdup, valtostrdup, hmbs]
  | some mbs =>
    refine ⟨xncmp id mbs t, xncmp_sign, fun grant => ?_⟩
    cases grant <;> simp [cmpStrMbs, valtombsdup, valtostrdup, hmbs]

theorem cmpStrStr_spec (hgt : ∀ f g, opt.flt.gt f g = true → opt.flt.gt g f = false) {m n : ℕ}
    (hm : m ≤ 2) (hn : n ≤ 2) :
    ∃ r, IsSign r ∧ cmpStrStr opt m s n t = .ok r ∧ cmpStrStr opt n t m s = .ok (-r) := by
  unfold cmpStrStr
  by_cases htext : m = 0 ∨ n = 0
  · rw [if_pos htext, if_pos htext.symm]
    exact ⟨_, xncmp_sign, rfl, congrArg Except.ok xncmp_swap⟩
  rw [if_neg htext, if_neg fun h => htext h.symm]
  rw [not_or] at htext
  have hnum : ∀ k ≤ 2, k ≠ 0 → ∀ text, ∃ num, nstrNum opt k text = .ok num := by
    intro k hk hk0 text
    unfold nstrNum
    by_cases h1 : k = 1
    · exact ⟨_, if_pos h1⟩
    · exact ⟨_, (if_neg h1).trans (if_pos (by omega))⟩
  obtain ⟨ll, hll⟩ := hnum m hm htext.1 s
  obtain ⟨rr, hrr⟩ := hnum n hn htext.2 t
  rw [hll, hrr]
  cases ll with
  | int a =>
    cases rr with
    | int b => exact ⟨_, cmpInt_sign, rfl, congrArg Except.ok cmpInt_swap⟩
    | flt b => exact ⟨_, cmpFlt_sign, rfl, congrArg Except.ok (cmpFlt_swap hgt)⟩
  | flt a =>
    cases rr with
    | int b | flt b => exact ⟨_, cmpFlt_sign, rfl, congrArg Except.ok (cmpFlt_swap hgt)⟩

def Ordered (opt : Opt F) (x y : View F) : Prop :=
  ∃ n, IsSign n ∧ Compares opt x y n ∧ Compares opt y x (-n)

theorem Ordered.symm (h : Ordered opt x y) : Ordered opt y x := by
  obtain ⟨n, hsign, hxy, hyx⟩ := h
  exact ⟨-n, hsign.neg, hyx, by rwa [neg_neg]⟩

theorem cmpEmpty_sign : IsSign (cmpEmpty t) := by
  unfold cmpEmpty IsSign
  split <;> simp

theorem ordered_nil (hy : y.IsScalar) : Ordered opt ⟨nx, .nil⟩ y := by
  obtain ⟨ny, cy⟩ := y
  cases cy with
  | nil => exact ⟨0, .inr (.inl rfl), compares_of_pure (fun _ => rfl)
      (fun _ _ => cmpView_eq rfl rfl) fun _ _ => cmpView_eq rfl rfl⟩
  | int v =>
    refine ⟨cmpInt 0 v, cmpInt_sign, compares_of_pure (fun _ => rfl)
      (fun _ _ => cmpView_eq rfl rfl) fun _ _ => ?_⟩
    rw [← cmpInt_swap]
    exact cmpView_eq rfl rfl
  | str t =>
    refine ⟨-cmpEmpty t, cmpEmpty_sign.neg, compares_of_pure (fun _ => rfl)
      (fun _ _ => cmpView_eq rfl rfl) fun _ _ => ?_⟩
    rw [neg_neg]
    exact cmpView_eq rfl rfl
  | mbs t =>
    refine ⟨-cmpEmpty (ofBytes t), cmpEmpty_sign.neg, compares_of_pure (fun _ => rfl)
      (fun _ _ => cmpView_eq rfl rfl) fun _ _ => ?_⟩
    rw [neg_neg]
    exact cmpView_eq rfl rfl
  | _ => cases hy

theorem fails_int_str :
    Fails opt grant ⟨nx, .int v⟩ ⟨ny, .str t⟩ =
      (!numeric opt opt.ctype ny t && (valtostrdup grant (some (intToStr v))).isNone) :=
  Bool.or_false _

theorem fails_int_mbs :
    Fails opt grant ⟨nx, .int v⟩ ⟨ny, .mbs text⟩ =
      (!numeric opt opt.mctype ny (ofBytes text) &&
        (valtombsdup opt grant (some (intToStr v))).isNone) :=
  Bool.or_false _

theorem fails_str_mbs :
    Fails opt grant ⟨nx, .str s⟩ ⟨ny, .mbs text⟩ = (valtombsdup opt grant (some s)).isNone :=
  Bool.or_false _

theorem ordered_int_str : Ordered opt ⟨nx, .int v⟩ ⟨ny, .str t⟩ := by
  obtain ⟨n, hsign, hcmp⟩ := cmpIntStr_spec opt v ny t
  have hpair : ¬IntMbs (⟨nx, .int v⟩ : View F) ⟨ny, .str t⟩ := by
    rintro (⟨_, _, -, ⟨⟩⟩ | ⟨_, _, ⟨⟩, -⟩)
  refine ⟨n, hsign, compares_of_text hpair (fun grant op => ?_) fun grant op => ?_⟩
  · rw [cmpView_eq rfl rfl, fails_int_str, ← hcmp]
    rfl
  · have hinv : cmpFunc opt grant op ⟨ny, .str t⟩ ⟨nx, .int v⟩ =
        .ok (inverse (cmpIntStr opt grant v ny t)) := rfl
    rw [cmpView_eq rfl rfl, hinv, fails_int_str, hcmp]
    split <;> rfl

theorem ordered_str_mbs : Ordered opt ⟨nx, .str s⟩ ⟨ny, .mbs text⟩ := by
  obtain ⟨n, hsign, hcmp⟩ := cmpStrMbs_spec opt s (ofBytes text)
  have hpair : ¬IntMbs (⟨nx, .str s⟩ : View F) ⟨ny, .mbs text⟩ := by
    rintro (⟨_, _, ⟨⟩, -⟩ | ⟨_, _, ⟨⟩, -⟩)
  refine ⟨n, hsign, compares_of_text hpair (fun grant op => ?_) fun grant op => ?_⟩
  · rw [cmpView_eq rfl rfl, fails_str_mbs, ← hcmp]
    rfl
  · have hinv : cmpFunc opt grant op ⟨ny, .mbs text⟩ ⟨nx, .str s⟩ =
        .ok (inverse (cmpStrMbs opt grant s (ofBytes text))) := rfl
    rw [cmpView_eq rfl rfl, hinv, fails_str_mbs, hcmp]
    split <;> rfl

theorem ordered_int_mbs : Ordered opt ⟨nx, .int v⟩ ⟨ny, .mbs text⟩ := by
  obtain ⟨n, hsign, hcmp⟩ := cmpIntMbs_spec opt v ny (ofBytes text)
  have hpair : IntMbs (⟨nx, .int v⟩ : View F) ⟨ny, .mbs text⟩ := .inl ⟨v, text, rfl, rfl⟩
  have hxy : ∀ grant op, cmpView opt grant op ⟨nx, .int v⟩ ⟨ny, .mbs text⟩ =
      .ok (some (if Fails opt grant ⟨nx, .int v⟩ ⟨ny, .mbs text⟩ = true then -1 else n)) := by
    intro grant op
    rw [cmpView_eq rfl rfl, fails_int_mbs, ← hcmp]
    rfl
  have hyx : ∀ grant op, cmpView opt grant op ⟨ny, .mbs text⟩ ⟨nx, .int v⟩ =
      .ok (some (if Fails opt grant ⟨nx, .int v⟩ ⟨ny, .mbs text⟩ = true then 1 else -n)) := by
    intro grant op
    have hinv : cmpFunc opt grant op ⟨ny, .mbs text⟩ ⟨nx, .int v⟩ =
        .ok (inverse (some (cmpIntMbs opt grant v ny (ofBytes text)))) := rfl
    rw [cmpView_eq rfl rfl, hinv, fails_int_mbs, hcmp]
    split <;> rfl
  refine ⟨n, hsign, ⟨fun grant op h => ?_, fun _ _ _ h => absurd hpair h, fun grant op h _ => ?_⟩,
    ⟨fun grant op h => ?_, fun _ _ _ h => absurd hpair.symm h, fun grant op h _ => ?_⟩⟩
  · rw [hxy, h]
    rfl
  · rw [hxy, h]
    exact ⟨-1, .inl rfl, rfl⟩
  · rw [hyx, fails_comm, h]
    rfl
  · rw [hyx, fails_comm, h]
    exact ⟨1, .inr (.inr rfl), rfl⟩

theorem ordered (hgt : ∀ f g, opt.flt.gt f g = true → opt.flt.gt g f = false) (hx : x.IsScalar)
    (hy : y.IsScalar) : Ordered opt x y := by
  obtain ⟨nx, cx⟩ := x
  obtain ⟨ny, cy⟩ := y
  cases cx with
  | nil => exact ordered_nil hy
  | int v =>
    cases cy with
    | nil => exact (ordered_nil hx).symm
    | int w =>
      refine ⟨cmpInt v w, cmpInt_sign, compares_of_pure (fun _ => rfl)
        (fun _ _ => cmpView_eq rfl rfl) fun _ _ => ?_⟩
      rw [← cmpInt_swap]
      exact cmpView_eq rfl rfl
    | str t => exact ordered_int_str
    | mbs t => exact ordered_int_mbs
    | _ => cases hy
  | str s =>
    cases cy with
    | nil => exact (ordered_nil hx).symm
    | int w => exact ordered_int_str.symm
    | str t =>
      obtain ⟨n, hsign, hst, hts⟩ := @cmpStrStr_spec F opt s t hgt nx ny hx hy
      have hxy : ∀ grant op, cmpFunc opt grant op ⟨nx, .str s⟩ ⟨ny, .str t⟩ =
          (cmpStrStr opt nx s ny t).map some := fun _ _ => rfl
      have hyx : ∀ grant op, cmpFunc opt grant op ⟨ny, .str t⟩ ⟨nx, .str s⟩ =
          (cmpStrStr opt ny t nx s).map some := fun _ _ => rfl
      refine ⟨n, hsign, compares_of_pure (fun _ => rfl) (fun grant op => ?_) fun grant op => ?_⟩
      · rw [cmpView_eq rfl rfl, hxy, hst]
        rfl
      · rw [cmpView_eq rfl rfl, hyx, hts]
        rfl
    | mbs t => exact ordered_str_mbs
    | _ => cases hy
  | mbs s =>
    cases cy with
    | nil => exact (ordered_nil hx).symm
    | int w => exact ordered_int_mbs.symm
    | str t => exact ordered_str_mbs.symm
    | mbs t =>
      refine ⟨xncmp id (ofBytes s) (ofBytes t), xncmp_sign, compares_of_pure (fun _ => rfl)
        (fun _ _ => cmpView_eq rfl rfl) fun _ _ => ?_⟩
      rw [← xncmp_swap]
      exact cmpView_eq rfl rfl
    | _ => cases hy
  | _ => cases hx

/-! ## The operators -/

variable {mem : CmpOp → Bool → Bool}

theorem result_eq (hxy : Compares opt x y n) (hyx : Compares opt y x (-n)) {swapped : Bool}
    (hspared : ¬(IntMbs x y ∧ Fails opt (mem op swapped) x y = true)) :
    result opt mem x y op swapped = .ok (if Fails opt (mem op swapped) x y = true then none
      else some (op.holds (if swapped then -n else n))) := by
  rw [result, evalBinopCmp, evalBinopCmp]
  cases hfails : Fails opt (mem op swapped) x y with
  | false =>
    cases swapped with
    | false =>
      rw [if_neg Bool.false_ne_true, hxy.value _ _ hfails]
      rfl
    | true =>
      rw [if_pos rfl, hyx.value _ _ (by rwa [fails_comm])]
      rfl
  | true =>
    have hpair : ¬IntMbs x y := fun h => hspared ⟨h, hfails⟩
    cases swapped with
    | false =>
      rw [if_neg Bool.false_ne_true, hxy.error _ _ hfails hpair]
      rfl
    | true =>
      rw [if_pos rfl, hyx.error _ _ (by rwa [fails_comm]) fun h => hpair h.symm]
      rfl

theorem mirror_holds (op : CmpOp) : op.mirror.holds (-n) = op.holds n := by
  cases op <;> simp [CmpOp.mirror, CmpOp.holds]

theorem mirror_ne (hop : op ≠ .none) : op.mirror ≠ .none := by
  cases op with
  | none => exact absurd rfl hop
  | _ => exact nofun

/-- The operators agree on two values if and only if the text of an integer that is compared with a
byte string as a text is there each time. -/
theorem agree_iff (hgt : ∀ f g, opt.flt.gt f g = true → opt.flt.gt g f = false) (hx : x.IsScalar)
    (hy : y.IsScalar) :
    Agree opt mem x y ↔
      ∀ op ≠ .none, ∀ swapped, ¬(IntMbs x y ∧ Fails opt (mem op swapped) x y = true) := by
  obtain ⟨n, hsign, hxy, hyx⟩ := ordered hgt hx hy
  constructor
  · rintro hagree op hop swapped ⟨hpair, hfails⟩
    obtain ⟨r, hr, herror⟩ := hagree.error op hop swapped
    rw [herror.2 hfails, result, evalBinopCmp, evalBinopCmp] at hr
    cases swapped with
    | false =>
      obtain ⟨m, -, hm⟩ := hxy.wrong (mem op false) op hfails hpair
      rw [if_neg Bool.false_ne_true, hm] at hr
      cases hr
    | true =>
      obtain ⟨m, -, hm⟩ := hyx.wrong (mem op true) op (by rwa [fails_comm]) hpair.symm
      rw [if_pos rfl, hm] at hr
      cases hr
  · intro hspared
    have hres : ∀ op ≠ .none, ∀ swapped a, result opt mem x y op swapped = .ok (some a) →
        a = op.holds (if swapped then -n else n) := by
      intro op hop swapped a ha
      rw [result_eq hxy hyx (hspared op hop swapped)] at ha
      split at ha <;> cases ha
      rfl
    refine ⟨fun op hop swapped => ⟨_, result_eq hxy hyx (hspared op hop swapped), ?_⟩,
      fun grant op m hm => ?_, fun lt eq gt hlt heq hgt' => ?_, fun le gt hle hgt' => ?_,
      fun ge lt hge hlt => ?_, fun ne eq hne heq => ?_, fun op hop a b ha hb => ?_⟩
    · split
      · rename_i h
        simp [h]
      · rename_i h
        simp [h]
    · cases hfails : Fails opt grant x y with
      | false =>
        rw [hxy.value _ _ hfails] at hm
        cases hm
        exact hsign.ne_error
      | true =>
        by_cases hpair : IntMbs x y
        · obtain ⟨m', hsign', hm'⟩ := hxy.wrong grant op hfails hpair
          rw [hm'] at hm
          cases hm
          exact hsign'.ne_error
        · rw [hxy.error _ _ hfails hpair] at hm
          cases hm
    · rw [hres .lt nofun false lt hlt, hres .eq nofun false eq heq, hres .gt nofun false gt hgt']
      rcases hsign with rfl | rfl | rfl <;> simp [CmpOp.holds]
    · rw [hres .le nofun false le hle, hres .gt nofun false gt hgt']
      rcases hsign with rfl | rfl | rfl <;> simp [CmpOp.holds]
    · rw [hres .ge nofun false ge hge, hres .lt nofun false lt hlt]
      rcases hsign with rfl | rfl | rfl <;> simp [CmpOp.holds]
    · rw [hres .ne nofun false ne hne, hres .eq nofun false eq heq]
      rcases hsign with rfl | rfl | rfl <;> simp [CmpOp.holds]
    · rw [hres op hop false a ha, hres op.mirror (mirror_ne hop) true b hb]
      exact (mirror_holds op).symm

end Laws

theorem Flt.ints_gt (f g : Int64) (h : Flt.ints.gt f g = true) : Flt.ints.gt g f = false :=
  decide_eq_false (Int64.not_lt.2 (Int64.le_of_lt (of_decide_eq_true h)))

/-- The integer 10 and the numeric string `9`, without memory for any of the operators -/
theorem agree_iff_numeric_string :
    Agree Opt.ints (fun _ _ => false) ⟨0, .int 10⟩ ⟨1, .str ['9'.val]⟩ := by
  have hx : View.IsScalar (⟨0, .int 10⟩ : View Int64) := trivial
  have hy : View.IsScalar (⟨1, .str ['9'.val]⟩ : View Int64) := Nat.le_succ 1
  refine (agree_iff Flt.ints_gt hx hy).2 fun op hop swapped => ?_
  rintro ⟨⟨_, _, -, ⟨⟩⟩ | ⟨_, _, ⟨⟩, -⟩, -⟩

/-- The integer 1 is the byte string `1`, and it is less when memory is refused to `<`. -/
theorem not_agree_int_mbs : ¬Agree Opt.ints (fun op _ => op == .eq) ⟨0, .int 1⟩ ⟨0, .mbs [49]⟩ := by
  intro hagree
  have hone := hagree.one true true false (by decide) (by decide) (by decide)
  simp at hone

end Qse.Awk
