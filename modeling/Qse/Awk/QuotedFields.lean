import Mathlib.Data.Int.Notation
import Qse.Support.Cells

/-!
# Quoted fields

A translation of `qse_awk_rtx_strxnfld` of `lib/awk/misc.c`, which takes the next field off a
record and writes it back over the record without its quotes and escapes. Each character passes
through a local variable of the type `char`; `lo` is the smallest `char`, `-128` or `0`. A
character of the record is an integer, and an access outside the record yields `none`.
-/

open List Option

namespace Qse.Awk.QuotedFields

open Cells

structure Delims where
  fs : ℤ
  ec : ℤ
  lq : ℤ
  rq : ℤ

/-- `qse_cstr_t`, the pointer being a place in the record. -/
structure Token where
  ptr : ℕ
  len : ℕ

structure Scan where
  buf : List ℤ
  p : ℕ
  tp : ℕ
  xp : ℕ
  escaped : Bool
  quoted : Bool

/-- `char c = *p;` -/
def narrow (lo c : ℤ) : ℤ := (c - lo) % 256 + lo

section Code

variable (isSpace : ℤ → Bool) (lo : ℤ) (d : Delims)

/-- `while (p < end && QSE_ISSPACE(*p)) p++;` for so many characters before `end`. -/
def skipSpaces (buf : List ℤ) : ℕ → ℕ → Option ℕ
  | 0, p => some p
  | n + 1, p => do
    let c ← buf[p]?
    if isSpace c then skipSpaces buf n (p + 1) else some p

/-- `while (p < end && *p == fs) p++;` and whether `end` is reached. -/
def skipSeps (fs : ℤ) (buf : List ℤ) : ℕ → ℕ → Option (Option ℕ)
  | 0, _ => some none
  | n + 1, p => do
    let c ← buf[p]?
    if c = fs then skipSeps fs buf n (p + 1) else some (some p)

/-- The main loop for so many characters before `end`, and what follows it: the record, the
token, and the pointer returned. -/
def scan (ts : ℕ) : ℕ → Scan → Option (List ℤ × Token × Option ℕ)
  | 0, s =>
    if s.escaped then do
      let buf ← put s.buf s.xp d.ec
      some (buf, ⟨ts, s.xp + 1 - ts⟩, none)
    else some (s.buf, ⟨ts, s.xp - ts⟩, none)
  | n + 1, s => do
    let c ← s.buf[s.p]?
    let c := narrow lo c
    if s.escaped then
      let buf ← put s.buf s.tp c
      scan ts n ⟨buf, s.p + 1, s.tp + 1, s.tp + 1, false, s.quoted⟩
    else if c = d.ec then scan ts n { s with p := s.p + 1, escaped := true }
    else if s.quoted then
      if c = d.rq then scan ts n { s with p := s.p + 1, quoted := false }
      else
        let buf ← put s.buf s.tp c
        scan ts n ⟨buf, s.p + 1, s.tp + 1, s.tp + 1, false, true⟩
    else if c = d.fs then
      if isSpace d.fs then
        let next ← skipSeps d.fs s.buf n (s.p + 1)
        some (s.buf, ⟨ts, s.xp - ts⟩, next)
      else some (s.buf, ⟨ts, s.xp - ts⟩, some (s.p + 1))
    else if c = d.lq then scan ts n { s with p := s.p + 1, quoted := true }
    else
      let buf ← put s.buf s.tp c
      let xp := if isSpace c then s.xp else s.tp + 1
      scan ts n ⟨buf, s.p + 1, s.tp + 1, xp, false, false⟩

/-- `qse_awk_rtx_strxnfld` for the `len` characters from `str` on. -/
def strxnfld (buf : List ℤ) (str len : ℕ) : Option (List ℤ × Token × Option ℕ) := do
  let p ← skipSpaces isSpace buf len str
  scan isSpace lo d p (str + len - p) ⟨buf, p, p, p, false, false⟩

/-- The fields that repeated calls return, each read before the next call. -/
def fields : ℕ → List ℤ → ℕ → Option (List (List ℤ))
  | 0, _, _ => none
  | calls + 1, buf, p => do
    let (buf, tok, next) ← strxnfld isSpace lo d buf p (buf.length - p)
    let field ← slice buf tok.ptr tok.len
    match next with
    | none => some [field]
    | some p => do
      let rest ← fields calls buf p
      some (field :: rest)

end Code

def escape (d : Delims) (c : ℤ) : List ℤ :=
  if c = d.ec ∨ c = d.lq ∨ c = d.rq then [d.ec, c] else [c]

def quote (d : Delims) (field : List ℤ) : List ℤ :=
  d.lq :: (field.flatMap (escape d) ++ [d.rq])

def join (d : Delims) : List (List ℤ) → List ℤ
  | [] => []
  | [field] => quote d field
  | field :: fields => quote d field ++ d.fs :: join d fields

/-- The delimiters can be told apart: the separator is not a space, the left quote neither a
space nor the separator, and the escaper none of the others. -/
structure Delims.Distinct (isSpace : ℤ → Bool) (d : Delims) : Prop where
  fs_space : isSpace d.fs = false
  lq_space : isSpace d.lq = false
  fs_lq : d.fs ≠ d.lq
  ec_fs : d.ec ≠ d.fs
  ec_lq : d.ec ≠ d.lq
  ec_rq : d.ec ≠ d.rq

def Returned (isSpace : ℤ → Bool) (lo : ℤ) (d : Delims) (xs : List (List ℤ)) : Prop :=
  fields isSpace lo d ((join d xs).length + 1) (join d xs) 0 = some xs

/-- The character is a `char`. -/
def InRange (lo c : ℤ) : Prop := lo ≤ c ∧ c < lo + 256

theorem narrow_inRange (lo c : ℤ) : InRange lo (narrow lo c) := by
  rw [InRange, narrow]
  omega

variable {lo : ℤ}

theorem InRange.narrow_eq {c : ℤ} (h : InRange lo c) : narrow lo c = c := by
  rw [InRange] at h
  rw [narrow]
  omega

/-! ## Over a quoted field -/

section Forward

variable {lo : ℤ} {pre out rest : List ℤ} {s : Scan} {c : ℤ}

structure At (pre out rest : List ℤ) (s : Scan) : Prop where
  buf : ∃ gap, s.buf = pre ++ (out ++ (gap ++ rest)) ∧ s.p = pre.length + out.length + gap.length
  tp : s.tp = pre.length + out.length
  xp : s.xp = s.tp

theorem At.read (h : At pre out (c :: rest) s) : s.buf[s.p]? = some c := by
  obtain ⟨gap, hbuf, hp⟩ := h.buf
  have hassoc : s.buf = (pre ++ (out ++ gap)) ++ c :: rest := by
    rw [hbuf]
    simp
  have hlength : s.p = (pre ++ (out ++ gap)).length := by
    rw [hp]
    simp only [length_append]
    omega
  rw [hassoc, hlength, getElem?_append_right (Nat.le_refl _), Nat.sub_self]
  rfl

theorem At.pass (h : At pre out (c :: rest) s) (escaped quoted : Bool) :
    At pre out rest ⟨s.buf, s.p + 1, s.tp, s.xp, escaped, quoted⟩ := by
  obtain ⟨gap, hbuf, hp⟩ := h.buf
  refine ⟨⟨gap ++ [c], ?_, ?_⟩, h.tp, h.xp⟩
  · rw [hbuf]
    simp
  · simp only [hp, length_append, length_singleton]
    omega

theorem At.write (h : At pre out (c :: rest) s) (escaped quoted : Bool) :
    ∃ buf, put s.buf s.tp c = some buf ∧
      At pre (out ++ [c]) rest ⟨buf, s.p + 1, s.tp + 1, s.tp + 1, escaped, quoted⟩ := by
  obtain ⟨gap, hbuf, hp⟩ := h.buf
  have htp : s.tp = (pre ++ out).length := by
    rw [h.tp, length_append]
  -- the cell written is the first of the gap, or that of the character itself
  obtain ⟨b, gap', hgap, hlength⟩ : ∃ b gap', gap ++ c :: rest = b :: (gap' ++ rest) ∧
      gap'.length = gap.length := by
    cases gap with
    | nil => exact ⟨c, [], rfl, rfl⟩
    | cons b gap =>
      refine ⟨b, gap ++ [c], ?_, ?_⟩
      · simp
      · simp
  refine ⟨(pre ++ out) ++ c :: (gap' ++ rest), ?_, ⟨gap', ?_, ?_⟩, ?_, rfl⟩
  · rw [hbuf, htp, hgap, ← append_assoc, put_append]
  · simp
  · simp only [hp, hlength, length_append, length_singleton]
    omega
  · change s.tp + 1 = pre.length + (out ++ [c]).length
    rw [h.tp, length_append, length_singleton]
    omega

theorem At.token (h : At pre out rest s) :
    slice s.buf pre.length (s.xp - pre.length) = some out := by
  obtain ⟨gap, hbuf, -⟩ := h.buf
  have hlength : s.xp - pre.length = out.length := by
    rw [h.xp, h.tp]
    omega
  rw [hbuf, hlength]
  exact slice_append

variable (isSpace : ℤ → Bool) (d : Delims)

theorem scan_cons (h : At pre out (c :: rest) s) (hc : InRange lo c) (ts : ℕ) :
    scan isSpace lo d ts (c :: rest).length s =
      if s.escaped then (do
        let buf ← put s.buf s.tp c
        scan isSpace lo d ts rest.length ⟨buf, s.p + 1, s.tp + 1, s.tp + 1, false, s.quoted⟩)
      else if c = d.ec then
        scan isSpace lo d ts rest.length { s with p := s.p + 1, escaped := true }
      else if s.quoted then
        if c = d.rq then
          scan isSpace lo d ts rest.length { s with p := s.p + 1, quoted := false }
        else (do
          let buf ← put s.buf s.tp c
          scan isSpace lo d ts rest.length ⟨buf, s.p + 1, s.tp + 1, s.tp + 1, false, true⟩)
      else if c = d.fs then
        if isSpace d.fs then (do
          let next ← skipSeps d.fs s.buf rest.length (s.p + 1)
          some (s.buf, ⟨ts, s.xp - ts⟩, next))
        else some (s.buf, ⟨ts, s.xp - ts⟩, some (s.p + 1))
      else if c = d.lq then
        scan isSpace lo d ts rest.length { s with p := s.p + 1, quoted := true }
      else (do
        let buf ← put s.buf s.tp c
        scan isSpace lo d ts rest.length
          ⟨buf, s.p + 1, s.tp + 1, if isSpace c then s.xp else s.tp + 1, false, false⟩) := by
  rw [length_cons, scan, h.read]
  simp only [bind_eq_bind, bind_some, hc.narrow_eq]

theorem scan_escape {d : Delims} (h : At pre out (escape d c ++ rest) s)
    (hescaped : s.escaped = false) (hquoted : s.quoted = true)
    (hrange : ∀ b ∈ escape d c, InRange lo b) (ts : ℕ) :
    ∃ s', At pre (out ++ [c]) rest s' ∧ s'.escaped = false ∧ s'.quoted = true ∧
      scan isSpace lo d ts (escape d c ++ rest).length s = scan isSpace lo d ts rest.length s' := by
  rw [escape] at h hrange ⊢
  split at h
  · rename_i hspecial
    rw [if_pos hspecial] at hrange ⊢
    have hpass := h.pass true s.quoted
    obtain ⟨buf, hput, hnext⟩ := hpass.write false s.quoted
    refine ⟨_, hnext, rfl, hquoted, ?_⟩
    have hfirst := scan_cons isSpace d h (hrange d.ec (by simp)) ts
    have hsecond := scan_cons isSpace d hpass (hrange c (by simp)) ts
    simp only [hescaped, Bool.false_eq_true, if_false, if_true] at hfirst
    simp only [if_true, hput, bind_eq_bind, bind_some] at hsecond
    exact hfirst.trans hsecond
  · rename_i hplain
    rw [if_neg hplain] at hrange ⊢
    simp only [not_or] at hplain
    obtain ⟨buf, hput, hnext⟩ := h.write false true
    refine ⟨_, hnext, rfl, rfl, ?_⟩
    have hround := scan_cons isSpace d h (hrange c (by simp)) ts
    simp only [hescaped, hquoted, hplain.1, hplain.2.2, hput, Bool.false_eq_true, if_false,
      if_true, bind_eq_bind, bind_some] at hround
    exact hround

theorem scan_body {d : Delims} {field : List ℤ}
    (h : At pre out (field.flatMap (escape d) ++ rest) s)
    (hescaped : s.escaped = false) (hquoted : s.quoted = true)
    (hrange : ∀ b ∈ field.flatMap (escape d), InRange lo b) (ts : ℕ) :
    ∃ s', At pre (out ++ field) rest s' ∧ s'.escaped = false ∧ s'.quoted = true ∧
      scan isSpace lo d ts (field.flatMap (escape d) ++ rest).length s =
        scan isSpace lo d ts rest.length s' := by
  induction field generalizing out s with
  | nil =>
    refine ⟨s, ?_, hescaped, hquoted, rfl⟩
    rw [append_nil]
    exact h
  | cons c field ih =>
    rw [flatMap_cons, append_assoc] at h ⊢
    simp only [flatMap_cons, mem_append] at hrange
    obtain ⟨s1, h1, hescaped1, hquoted1, hscan1⟩ := scan_escape isSpace h hescaped
      hquoted (fun b hb => hrange b (.inl hb)) ts
    obtain ⟨s2, h2, hescaped2, hquoted2, hscan2⟩ := ih h1 hescaped1 hquoted1
      fun b hb => hrange b (.inr hb)
    refine ⟨s2, ?_, hescaped2, hquoted2, hscan1.trans hscan2⟩
    rw [append_assoc] at h2
    exact h2

variable {isSpace d}

theorem scan_quote (hd : d.Distinct isSpace) {field : List ℤ}
    (h : At pre [] (quote d field ++ rest) s) (hescaped : s.escaped = false)
    (hquoted : s.quoted = false) (hrange : ∀ b ∈ quote d field, InRange lo b) (ts : ℕ) :
    ∃ s', At pre field rest s' ∧ s'.escaped = false ∧ s'.quoted = false ∧
      scan isSpace lo d ts (quote d field ++ rest).length s =
        scan isSpace lo d ts rest.length s' := by
  rw [quote, cons_append, append_assoc, singleton_append] at h ⊢
  simp only [quote, mem_cons, mem_append, not_mem_nil, or_false] at hrange
  have hopen := h.pass s.escaped true
  obtain ⟨s1, h1, hescaped1, hquoted1, hscan1⟩ := scan_body isSpace hopen hescaped rfl
    (fun b hb => hrange b (.inr (.inl hb))) ts
  have hclose := h1.pass s1.escaped false
  refine ⟨_, hclose, hescaped1, rfl, ?_⟩
  have hfirst := scan_cons isSpace d h (hrange d.lq (.inl rfl)) ts
  have hlast := scan_cons isSpace d h1 (hrange d.rq (.inr (.inr rfl))) ts
  simp only [hescaped, hquoted, hd.ec_lq.symm, hd.fs_lq.symm, Bool.false_eq_true, if_false,
    if_true] at hfirst
  simp only [hescaped1, hquoted1, hd.ec_rq.symm, Bool.false_eq_true, if_false, if_true] at hlast
  rw [hfirst]
  rw [hescaped] at hscan1
  rw [hscan1, hlast, hescaped1]

theorem skipSpaces_lq (hd : d.Distinct isSpace) (pre rest : List ℤ) (n : ℕ) :
    skipSpaces isSpace (pre ++ d.lq :: rest) (n + 1) pre.length = some pre.length := by
  rw [skipSpaces, getElem?_append_right (Nat.le_refl _), Nat.sub_self]
  simp [hd.lq_space]

theorem strxnfld_quote (hd : d.Distinct isSpace) {field : List ℤ}
    (hrange : ∀ b ∈ quote d field, InRange lo b) :
    ∃ s, At pre field rest s ∧ s.escaped = false ∧ s.quoted = false ∧
      strxnfld isSpace lo d (pre ++ (quote d field ++ rest)) pre.length
          (quote d field ++ rest).length =
        scan isSpace lo d pre.length rest.length s := by
  have hstart : At pre [] (quote d field ++ rest)
      ⟨pre ++ (quote d field ++ rest), pre.length, pre.length, pre.length, false, false⟩ :=
    ⟨⟨[], rfl, rfl⟩, rfl, rfl⟩
  obtain ⟨s, hs, hescaped, hquoted, hscan⟩ := scan_quote hd hstart rfl rfl hrange pre.length
  refine ⟨s, hs, hescaped, hquoted, ?_⟩
  have hskip : skipSpaces isSpace (pre ++ (quote d field ++ rest))
      (quote d field ++ rest).length pre.length = some pre.length :=
    skipSpaces_lq hd pre _ _
  rw [strxnfld, hskip]
  simp only [bind_eq_bind, bind_some, Nat.add_sub_cancel_left]
  exact hscan

theorem join_cons (d : Delims) (field : List ℤ) {xs : List (List ℤ)} (h : xs ≠ []) :
    join d (field :: xs) = quote d field ++ d.fs :: join d xs := by
  cases xs with
  | nil => exact absurd rfl h
  | cons x xs => rfl

theorem length_le_join (d : Delims) (xs : List (List ℤ)) : xs.length ≤ (join d xs).length := by
  induction xs with
  | nil => exact Nat.zero_le _
  | cons field xs ih =>
    by_cases hnil : xs = []
    · subst hnil
      simp [join, quote]
    · rw [join_cons d field hnil]
      simp only [length_cons, length_append]
      omega

theorem fields_join (hd : d.Distinct isSpace) {xs : List (List ℤ)} (hxs : xs ≠ [])
    (hrange : ∀ c ∈ join d xs, InRange lo c) (pre : List ℤ) {calls : ℕ}
    (hcalls : xs.length ≤ calls) :
    fields isSpace lo d calls (pre ++ join d xs) pre.length = some xs := by
  induction xs generalizing pre calls with
  | nil => exact absurd rfl hxs
  | cons field xs ih =>
    obtain ⟨calls, rfl⟩ : ∃ k, calls = k + 1 := ⟨calls - 1, by simp at hcalls; omega⟩
    have hlength : (pre ++ join d (field :: xs)).length - pre.length =
        (join d (field :: xs)).length := by
      rw [length_append]
      omega
    rw [fields, hlength]
    by_cases hnil : xs = []
    · -- the end of the record ends the last field
      subst hnil
      have hquote : join d [field] = quote d field ++ [] := (append_nil _).symm
      rw [hquote] at hrange ⊢
      obtain ⟨s, hs, hescaped, -, hcall⟩ := @strxnfld_quote lo pre [] isSpace d hd field
        fun b hb => hrange b (mem_append_left _ hb)
      rw [hcall, length_nil, scan, hescaped]
      simp only [Bool.false_eq_true, if_false, bind_eq_bind, bind_some, hs.token]
    rw [join_cons d field hnil] at hrange ⊢
    obtain ⟨s, hs, hescaped, hquoted, hcall⟩ :=
      @strxnfld_quote lo pre (d.fs :: join d xs) isSpace d hd field
        fun b hb => hrange b (mem_append_left _ hb)
    have hfs : InRange lo d.fs := hrange d.fs (by simp)
    have hsep := scan_cons isSpace d hs hfs pre.length
    simp only [hescaped, hquoted, hd.ec_fs.symm, hd.fs_space, Bool.false_eq_true, if_false,
      if_true] at hsep
    obtain ⟨gap, hbuf, hp⟩ := hs.buf
    have hrest : s.buf = (pre ++ (field ++ (gap ++ [d.fs]))) ++ join d xs := by
      rw [hbuf]
      simp
    have hnext : s.p + 1 = (pre ++ (field ++ (gap ++ [d.fs]))).length := by
      simp only [hp, length_append, length_singleton]
      omega
    have htail := ih hnil (fun c hc => hrange c (by simp [hc]))
      (pre ++ (field ++ (gap ++ [d.fs]))) (by simpa using hcalls)
    rw [← hrest, ← hnext] at htail
    rw [hcall, hsep]
    simp only [bind_eq_bind, bind_some, hs.token, htail]

end Forward

/-! ## Whatever the record holds -/

section Range

variable {isSpace : ℤ → Bool} {lo : ℤ} {d : Delims} {ts : ℕ} {s : Scan}

/-- What has been written of the token are `char`s, and so is an escaper that has been met. -/
structure Narrow (lo : ℤ) (d : Delims) (ts : ℕ) (s : Scan) : Prop where
  chars : ∀ i c, ts ≤ i → i < s.tp → s.buf[i]? = some c → InRange lo c
  start : ts ≤ s.xp
  xp : s.xp ≤ s.tp
  escaper : s.escaped = true → InRange lo d.ec

theorem Narrow.move (h : Narrow lo d ts s) (p : ℕ) {escaped : Bool} (quoted : Bool)
    (hescaper : escaped = true → InRange lo d.ec) :
    Narrow lo d ts ⟨s.buf, p, s.tp, s.xp, escaped, quoted⟩ :=
  ⟨h.chars, h.start, h.xp, hescaper⟩

variable {buf : List ℤ} {r : List ℤ × Token × Option ℕ}

theorem put_chars {buf' : List ℤ} {tp : ℕ} {c : ℤ}
    (h : ∀ i c, ts ≤ i → i < tp → buf[i]? = some c → InRange lo c) (hc : InRange lo c)
    (hput : put buf tp c = some buf') :
    ∀ i c, ts ≤ i → i < tp + 1 → buf'[i]? = some c → InRange lo c := by
  rw [put] at hput
  split at hput
  · rename_i htp
    obtain rfl := some.inj hput
    intro i b hts hi hb
    by_cases heq : i = tp
    · subst heq
      rw [getElem?_set_self htp] at hb
      obtain rfl := some.inj hb
      exact hc
    · rw [getElem?_set_ne (Ne.symm heq)] at hb
      exact h i b hts (by omega) hb
  · exact absurd hput (by simp)

theorem Narrow.write (h : Narrow lo d ts s) {c : ℤ} (hc : InRange lo c) {buf : List ℤ}
    (hput : put s.buf s.tp c = some buf) (p : ℕ) {xp : ℕ} (hxp : xp = s.xp ∨ xp = s.tp + 1)
    (quoted : Bool) : Narrow lo d ts ⟨buf, p, s.tp + 1, xp, false, quoted⟩ := by
  have hstart := h.start
  have hle := h.xp
  refine ⟨put_chars h.chars hc hput, ?_, ?_, fun hescaped => absurd hescaped Bool.false_ne_true⟩
  · change ts ≤ xp
    omega
  · change xp ≤ s.tp + 1
    omega

/-- The characters of a token are `char`s. -/
def TokenNarrow (lo : ℤ) (r : List ℤ × Token × Option ℕ) : Prop :=
  ∀ i c, r.2.1.ptr ≤ i → i < r.2.1.ptr + r.2.1.len → r.1[i]? = some c → InRange lo c

theorem Narrow.token (h : Narrow lo d ts s) (next : Option ℕ) :
    TokenNarrow lo (s.buf, ⟨ts, s.xp - ts⟩, next) := by
  intro i c hts hi hc
  have hstart := h.start
  have hle := h.xp
  simp only at hts hi
  exact h.chars i c hts (by omega) hc

theorem scan_narrow {n : ℕ} (h : Narrow lo d ts s)
    (hscan : scan isSpace lo d ts n s = some r) : TokenNarrow lo r := by
  induction n generalizing s with
  | zero =>
    rw [scan] at hscan
    split at hscan
    · rename_i hescaped
      obtain ⟨buf, hput, hr⟩ := bind_eq_some_iff.mp hscan
      obtain rfl := some.inj hr
      have hchars : ∀ i c, ts ≤ i → i < s.xp → s.buf[i]? = some c → InRange lo c :=
        fun i c hts hi => h.chars i c hts (Nat.lt_of_lt_of_le hi h.xp)
      have hstart := h.start
      intro i c hts hi hc
      simp only at hts hi
      exact put_chars hchars (h.escaper hescaped) hput i c hts (by omega) hc
    · obtain rfl := some.inj hscan
      exact h.token none
  | succ n ih =>
    rw [scan] at hscan
    obtain ⟨b, -, hscan⟩ := bind_eq_some_iff.mp hscan
    have hb := narrow_inRange lo b
    generalize narrow lo b = c at hb hscan
    simp only at hscan
    split at hscan
    · obtain ⟨buf, hput, hscan⟩ := bind_eq_some_iff.mp hscan
      exact ih (h.write hb hput _ (.inr rfl) _) hscan
    split at hscan
    · rename_i heq
      exact ih (h.move _ _ fun _ => heq ▸ hb) hscan
    split at hscan
    · split at hscan
      · exact ih (h.move _ _ h.escaper) hscan
      · obtain ⟨buf, hput, hscan⟩ := bind_eq_some_iff.mp hscan
        exact ih (h.write hb hput _ (.inr rfl) _) hscan
    split at hscan
    · split at hscan
      · obtain ⟨next, -, hr⟩ := bind_eq_some_iff.mp hscan
        obtain rfl := some.inj hr
        exact h.token next
      · obtain rfl := some.inj hscan
        exact h.token _
    split at hscan
    · exact ih (h.move _ _ h.escaper) hscan
    · obtain ⟨buf, hput, hscan⟩ := bind_eq_some_iff.mp hscan
      refine ih (h.write hb hput _ ?_ _) hscan
      split
      · exact .inl rfl
      · exact .inr rfl

theorem strxnfld_narrow {str len : ℕ}
    (h : strxnfld isSpace lo d buf str len = some r) : TokenNarrow lo r := by
  obtain ⟨p, -, hscan⟩ := bind_eq_some_iff.mp h
  have hstart : Narrow lo d p ⟨buf, p, p, p, false, false⟩ := by
    refine ⟨?_, Nat.le_refl _, Nat.le_refl _, fun hescaped => absurd hescaped Bool.false_ne_true⟩
    intro i c hts hi
    exact absurd hi (Nat.not_lt.mpr hts)
  exact scan_narrow hstart hscan

theorem slice_narrow (h : TokenNarrow lo r) {field : List ℤ}
    (hslice : slice r.1 r.2.1.ptr r.2.1.len = some field) : ∀ c ∈ field, InRange lo c := by
  rw [slice] at hslice
  split at hslice
  · obtain rfl := some.inj hslice
    intro c hc
    obtain ⟨i, hi⟩ := mem_iff_getElem?.mp hc
    have hlt : i < r.2.1.len := by
      have hbound := (List.getElem?_eq_some_iff.mp hi).1
      rw [length_take] at hbound
      omega
    rw [getElem?_take_of_lt hlt, getElem?_drop] at hi
    exact h _ c (Nat.le_add_right _ _) (by omega) hi
  · exact absurd hslice (by simp)

theorem fields_narrow {calls : ℕ} {p : ℕ} {xs : List (List ℤ)}
    (h : fields isSpace lo d calls buf p = some xs) :
    xs ≠ [] ∧ ∀ field ∈ xs, ∀ c ∈ field, InRange lo c := by
  induction calls generalizing buf p xs with
  | zero => exact absurd h (by simp [fields])
  | succ calls ih =>
    rw [fields] at h
    obtain ⟨⟨buf', tok, next⟩, hcall, h⟩ := bind_eq_some_iff.mp h
    obtain ⟨field, hslice, h⟩ := bind_eq_some_iff.mp h
    have hfield := slice_narrow (strxnfld_narrow hcall) hslice
    cases next with
    | none =>
      obtain rfl := some.inj h
      refine ⟨by simp, ?_⟩
      intro x hx
      obtain rfl := mem_singleton.mp hx
      exact hfield
    | some p' =>
      obtain ⟨rest, hrest, h⟩ := bind_eq_some_iff.mp h
      obtain rfl := some.inj h
      refine ⟨by simp, ?_⟩
      intro x hx
      rcases mem_cons.mp hx with rfl | hx
      · exact hfield
      · exact (ih hrest).2 x hx

end Range

/-- The delimiters are `char`s. -/
def Delims.InRange (lo : ℤ) (d : Delims) : Prop :=
  QuotedFields.InRange lo d.fs ∧ QuotedFields.InRange lo d.ec ∧ QuotedFields.InRange lo d.lq ∧
    QuotedFields.InRange lo d.rq

theorem quote_inRange {d : Delims} (hd : d.InRange lo) {field : List ℤ}
    (h : ∀ c ∈ field, InRange lo c) : ∀ c ∈ quote d field, InRange lo c := by
  obtain ⟨-, hec, hlq, hrq⟩ := hd
  intro c hc
  simp only [quote, mem_cons, mem_append, not_mem_nil, or_false] at hc
  rcases hc with rfl | hc | rfl
  · exact hlq
  · obtain ⟨b, hb, hcb⟩ := mem_flatMap.mp hc
    rw [escape] at hcb
    split at hcb
    · simp only [mem_cons, not_mem_nil, or_false] at hcb
      rcases hcb with rfl | rfl
      · exact hec
      · exact h c hb
    · obtain rfl := mem_singleton.mp hcb
      exact h c hb
  · exact hrq

theorem join_inRange {d : Delims} (hd : d.InRange lo) {xs : List (List ℤ)}
    (h : ∀ field ∈ xs, ∀ c ∈ field, InRange lo c) : ∀ c ∈ join d xs, InRange lo c := by
  induction xs with
  | nil => exact fun c hc => absurd hc (by simp [join])
  | cons field xs ih =>
    have hquote := quote_inRange hd (h field (.head _))
    by_cases hnil : xs = []
    · rw [hnil]
      exact hquote
    intro c hc
    rw [join_cons d field hnil] at hc
    rcases mem_append.mp hc with hc | hc
    · exact hquote c hc
    rcases mem_cons.mp hc with rfl | hc
    · exact hd.1
    · exact ih (fun x hx => h x (.tail _ hx)) c hc

/-- Repeated calls return the fields when there is one and all characters of the record are
`char`s. With delimiters that are, they do so exactly when there is a field and the characters
of the fields are `char`s. -/
theorem returned_iff {isSpace : ℤ → Bool} {d : Delims} (hd : d.Distinct isSpace) (lo : ℤ)
    (xs : List (List ℤ)) :
    (xs ≠ [] → (∀ c ∈ join d xs, InRange lo c) → Returned isSpace lo d xs) ∧
      (d.InRange lo →
        (Returned isSpace lo d xs ↔ xs ≠ [] ∧ ∀ field ∈ xs, ∀ c ∈ field, InRange lo c)) := by
  have hreturned (hxs : xs ≠ []) (hrange : ∀ c ∈ join d xs, InRange lo c) :
      Returned isSpace lo d xs :=
    fields_join hd hxs hrange [] (Nat.le_succ_of_le (length_le_join d xs))
  refine ⟨hreturned, fun hdelims => ?_⟩
  constructor
  · exact fields_narrow
  · rintro ⟨hxs, hrange⟩
    exact hreturned hxs (join_inRange hdelims hrange)

def asciiSpace (c : ℤ) : Bool := c = 32 || (9 ≤ c && c ≤ 13)

/-- The delimiters of `FS = "?,\\\"\""`. -/
def commaQuoted : Delims := ⟨44, 92, 34, 34⟩

theorem commaQuoted_distinct : commaQuoted.Distinct asciiSpace :=
  ⟨by decide, by decide, by decide, by decide, by decide, by decide⟩

/-- Two fields, the first with a quote in it. -/
theorem returned_iff_quote : Returned asciiSpace (-128) commaQuoted [[97, 34, 44], [98]] :=
  (returned_iff commaQuoted_distinct (-128) [[97, 34, 44], [98]]).1 (by decide) (by
    simp only [InRange]
    decide)

/-- The character U+4E2D comes back as a hyphen. -/
theorem not_returned : commaQuoted.Distinct asciiSpace ∧
    fields asciiSpace (-128) commaQuoted 4 (join commaQuoted [[0x4E2D]]) 0 = some [[0x2D]] ∧
    ¬Returned asciiSpace (-128) commaQuoted [[0x4E2D]] := by
  refine ⟨⟨by decide, by decide, by decide, by decide, by decide, by decide⟩, by decide, ?_⟩
  rw [Returned]
  decide

end Qse.Awk.QuotedFields
