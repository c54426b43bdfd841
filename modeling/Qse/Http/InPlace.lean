import Qse.Http.Framing
import Qse.Support.ByteMemory

/-!
# Header fields in the receive buffer

A translation of `parse_header_field`, `hdr_cbserter` and the loop of
`parse_initial_line_and_headers` in `lib/http/htrd.c` that works on the octets of the buffer. The
names and the values of the header table are pieces of this buffer. A write behind the place up to
which the text has been read has no result.
-/

open Function List

namespace Qse.Http.InPlace

open ByteMemory

/-- `while (is_space_octet(*p)) p++;` or the same with `is_whspace_octet`. -/
def skip (space : UInt8 → Bool) (m : Mem) : ℕ → ℕ → Option ℕ
  | 0, _ => none
  | fuel + 1, p => if space (m p) then skip space m fuel (p + 1) else some p

/-- The loops over a name and over the first line of a value: `p` and `last`. -/
def scan (go : UInt8 → Bool) (m : Mem) : ℕ → ℕ → ℕ → Option (ℕ × ℕ)
  | 0, _, _ => none
  | fuel + 1, p, last =>
    if m p ≠ 0 ∧ go (m p) then
      scan go m fuel (p + 1) (if isSpaceOctet (m p) then last else p + 1)
    else some (p, last)

/-- The loop that copies a continued line: the memory, `p`, `cpydst` and `last`. -/
def copyLine : ℕ → Mem → ℕ → ℕ → ℕ → Option (Mem × ℕ × ℕ × ℕ)
  | 0, _, _, _, _ => none
  | fuel + 1, m, p, cpydst, last =>
    if m p ≠ 0 ∧ m p ≠ mt '\n' then
      match writeByte m (p + 1) cpydst (m p) with
      | none => none
      | some m =>
        copyLine fuel m (p + 1) (cpydst + 1)
          (if isSpaceOctet (m cpydst) then last else cpydst + 1)
    else some (m, p, cpydst, last)

/-- "process all continued lines": the memory, `p` and `last`. -/
def copyLines : ℕ → Mem → ℕ → ℕ → ℕ → Option (Except Errnum (Mem × ℕ × ℕ))
  | 0, _, _, _, _ => none
  | fuel + 1, m, p, cpydst, last =>
    match copyLine (fuel + 1) m p cpydst last with
    | none => none
    | some (m, p, cpydst, last) =>
      if m p = mt '\n' then
        let cpydst := if m (cpydst - 1) = mt '\r' then cpydst - 1 else cpydst
        if isPurespaceOctet (m (p + 1)) then copyLines fuel m (p + 1) cpydst last
        else some (.ok (m, p + 1, last))
      else some (.error .badhdr)

structure Slice where
  ptr : ℕ
  len : ℕ

def Slice.text (m : Mem) (s : Slice) : List UInt8 := read m s.ptr s.len

/-- The part of `parse_header_field` from the colon on: the memory, the rest, and `value`. -/
def readValue (fuel : ℕ) (m : Mem) (colon : ℕ) : Option (Except Errnum (Mem × ℕ × Slice)) :=
  match skip isSpaceOctet m fuel (colon + 1) with
  | none => none
  | some ptr =>
    match scan (· ≠ mt '\n') m fuel ptr ptr with
    | none => none
    | some (p, last) =>
      if m p = mt '\n' then
        let joined :=
          if isPurespaceOctet (m (p + 1)) then
            copyLines fuel m (p + 1) (if m (p - 1) = mt '\r' then p - 1 else p) last
          else some (.ok (m, p + 1, last))
        match joined with
        | none => none
        | some (.error e) => some (.error e)
        | some (.ok (m, p, last)) =>
          match writeByte m p last 0 with
          | none => none
          | some m => some (.ok (m, p, ⟨ptr, last - ptr⟩))
      else some (.error .badhdr)

/-- The part of `parse_header_field` that looks for a field: the memory, the rest, and `name` and
`value` unless the line is ignored. -/
def readField (strict : Bool) (fuel : ℕ) (m : Mem) (line : ℕ) :
    Option (Except Errnum (Mem × ℕ × Option (Slice × Slice))) :=
  match scan (fun c => c ≠ mt '\n' ∧ c ≠ mt ':') m fuel line line with
  | none => none
  | some (p, last) =>
    if m p = mt ':' then
      match writeByte m (p + 1) last 0 with
      | none => none
      | some m =>
        match readValue fuel m p with
        | none => none
        | some (.error e) => some (.error e)
        | some (.ok (m, q, value)) => some (.ok (m, q, some (⟨line, last - line⟩, value)))
    else if strict then some (.error .badhdr)
    else
      match skip isSpaceOctet m fuel p with
      | none => none
      | some p =>
        if m p = mt '\n' then some (.ok (m, p + 1, none)) else some (.error .badhdr)

abbrev SliceTable := List (Slice × List Slice)

namespace SliceTable

def contents (m : Mem) (tab : SliceTable) : Table :=
  tab.map fun pair => (pair.1.text m, pair.2.map (Slice.text m))

def values (m : Mem) (tab : SliceTable) (name : List UInt8) : List Slice :=
  ((tab.find? fun pair => pair.1.text m = name).map Prod.snd).getD []

/-- `qse_htb_cbsert` with `hdr_cbserter` -/
def insert (m : Mem) (tab : SliceTable) (name value : Slice) : SliceTable :=
  if tab.any fun pair => pair.1.text m = name.text m then
    tab.map fun pair =>
      if pair.1.text m = name.text m then (pair.1, pair.2 ++ [value]) else pair
  else tab ++ [(name, [value])]

end SliceTable

/-- The buffer, the table `re.hdrtab`, and the rest of `re`, where the table has no part. -/
structure Reader where
  mem : Mem
  hdrtab : SliceTable
  re : Re

/-- `qse_htb_cbsert` and `capture_key_header`, which sees the values of the name. -/
def insertField (r : Reader) (name value : Slice) : Except Errnum Reader :=
  let hdrtab := r.hdrtab.insert r.mem name value
  let values := hdrtab.values r.mem (name.text r.mem)
  match captureKeyHeader r.re (name.text r.mem) (values.map (Slice.text r.mem)) with
  | .error e => .error e
  | .ok re => .ok { r with hdrtab := hdrtab, re := re }

def parseHeaderField (opts : Options) (fuel : ℕ) (r : Reader) (line : ℕ) :
    Option (Except Errnum (Reader × ℕ)) :=
  match readField opts.strict fuel r.mem line with
  | none => none
  | some (.error e) => some (.error e)
  | some (.ok (m, p, none)) => some (.ok ({ r with mem := m }, p))
  | some (.ok (m, p, some (name, value))) =>
    match insertField { r with mem := m } name value with
    | .error e => some (.error e)
    | .ok r => some (.ok (r, p))

/-- The loop of `parse_initial_line_and_headers`. -/
def parseHeaders (opts : Options) : ℕ → Reader → ℕ → Option (Except Errnum Reader)
  | 0, _, _ => none
  | fuel + 1, r, p =>
    match skip isWhspaceOctet r.mem (fuel + 1) p with
    | none => none
    | some p =>
      if r.mem p = 0 then some (.ok r)
      else
        match parseHeaderField opts (fuel + 1) r p with
        | none => none
        | some (.error e) => some (.error e)
        | some (.ok (r, p)) => parseHeaders opts fuel r p

/-- The string at `p`. -/
def string (m : Mem) : ℕ → ℕ → List UInt8
  | 0, _ => []
  | fuel + 1, p => if m p = 0 then [] else m p :: string m fuel (p + 1)

/-- What `parse_initial_line_and_headers` does before the fields. The initial line is read as a
string, since what is written into it stands before the fields. -/
def parseBeforeFields (opts : Options) (re : Re) (raw : List UInt8) :
    Except Errnum (Re × List UInt8) :=
  let p := raw.dropWhile isSpaceOctet
  if opts.skipInitialLine then .ok (re, p) else parseInitialLine opts re p

/-- `parse_initial_line_and_headers` on the buffer, which has the header at `raw`. -/
def parseInitialLineAndHeaders (opts : Options) (fuel : ℕ) (r : Reader) (raw : ℕ) :
    Option (Except Errnum Reader) :=
  match parseBeforeFields opts r.re (string r.mem fuel raw) with
  | .error e => some (.error e)
  | .ok (re, rest) =>
    parseHeaders opts fuel { r with re := re }
      (raw + (string r.mem fuel raw).length - rest.length)

variable {m : Mem} {p d last fuel : ℕ} {s t : List UInt8}

/-! ## Ends of strings -/

theorem trimEnd_concat (s : List UInt8) (c : UInt8) :
    trimEnd (s ++ [c]) = if isSpaceOctet c then trimEnd s else s ++ [c] :=
  rdropWhile_concat _ _ _

theorem trimEnd_eq_nil_iff : trimEnd s = [] ↔ ∀ c ∈ s, isSpaceOctet c = true :=
  rdropWhile_eq_nil_iff

theorem trimEnd_isPrefix (s : List UInt8) : trimEnd s <+: s := rdropWhile_prefix _ _

theorem trimEnd_append_of_nil (s : List UInt8) (ht : trimEnd t = []) :
    trimEnd (s ++ t) = trimEnd s := by
  induction t using List.reverseRecOn with
  | nil => rw [append_nil]
  | append_singleton t c ih =>
    have hspaces := trimEnd_eq_nil_iff.mp ht
    have hc : isSpaceOctet c = true := hspaces c (by simp)
    have htail : trimEnd t = [] :=
      trimEnd_eq_nil_iff.mpr fun d hd => hspaces d (mem_append_left _ hd)
    rw [← append_assoc, trimEnd_concat, if_pos hc, ih htail]

theorem trimEnd_append_of_ne (s : List UInt8) (ht : trimEnd t ≠ []) :
    trimEnd (s ++ t) = s ++ trimEnd t := by
  induction t using List.reverseRecOn with
  | nil => exact absurd rfl ht
  | append_singleton t c ih =>
    rw [trimEnd_concat] at ht ⊢
    rw [← append_assoc, trimEnd_concat]
    by_cases hc : isSpaceOctet c = true
    · rw [if_pos hc] at ht
      rw [if_pos hc, if_pos hc, ih ht]
    · rw [if_neg hc, if_neg hc, append_assoc]

theorem chopCR_isPrefix (s : List UInt8) : chopCR s <+: s := by
  rw [chopCR]
  split
  · exact dropLast_prefix s
  · exact prefix_refl s

theorem trimEnd_chopCR (s : List UInt8) : trimEnd (chopCR s) = trimEnd s := by
  rw [chopCR]
  split
  case isFalse => rfl
  case isTrue hlast =>
    obtain ⟨s, rfl⟩ := getLast?_eq_some_iff.mp hlast
    rw [dropLast_concat, trimEnd_concat, if_pos (by decide)]

def lastAfter (last d : ℕ) (s : List UInt8) : ℕ :=
  if trimEnd s = [] then last else d + (trimEnd s).length

theorem lastAfter_append (last d : ℕ) (s t : List UInt8) :
    lastAfter (lastAfter last d s) (d + s.length) t = lastAfter last d (s ++ t) := by
  by_cases ht : trimEnd t = []
  · rw [lastAfter, if_pos ht, lastAfter, lastAfter, trimEnd_append_of_nil s ht]
  · have hne : s ++ trimEnd t ≠ [] := fun h => ht (append_eq_nil_iff.mp h).2
    rw [lastAfter, if_neg ht, lastAfter, trimEnd_append_of_ne s ht, if_neg hne,
      length_append, add_assoc]

theorem lastAfter_singleton (last d : ℕ) (c : UInt8) :
    lastAfter last d [c] = if isSpaceOctet c then last else d + 1 := by
  have htrim : trimEnd [c] = if isSpaceOctet c then [] else [c] := rdropWhile_singleton _ _
  rw [lastAfter, htrim]
  by_cases hc : isSpaceOctet c = true
  · simp only [if_pos hc, if_true]
  · rw [if_neg hc, if_neg hc, if_neg (cons_ne_nil c []), length_singleton]

theorem lastAfter_cons (last d : ℕ) (c : UInt8) (s : List UInt8) :
    lastAfter (if isSpaceOctet c then last else d + 1) (d + 1) s = lastAfter last d (c :: s) := by
  rw [← lastAfter_singleton]
  exact lastAfter_append last d [c] s

theorem lastAfter_chopCR (last d : ℕ) (s : List UInt8) :
    lastAfter last d (chopCR s) = lastAfter last d s := by
  rw [lastAfter, trimEnd_chopCR, lastAfter]

theorem lastAfter_le (hlast : last ≤ p) (hd : d + s.length ≤ p) : lastAfter last d s ≤ p := by
  rw [lastAfter]
  split
  · exact hlast
  · have hlen := (trimEnd_isPrefix s).length_le
    omega

theorem lastAfter_self (d : ℕ) (s : List UInt8) : lastAfter d d s = d + (trimEnd s).length := by
  rw [lastAfter]
  split
  case isTrue hs => rw [hs, length_nil, add_zero]
  case isFalse => rfl

/-! ## The loops -/

theorem skip_eq (space : UInt8 → Bool) (hspace : space 0 = false) (hs : CStr m p s)
    (hfuel : s.length < fuel) :
    skip space m fuel p = some (p + (s.takeWhile space).length) := by
  induction fuel generalizing p s with
  | zero => omega
  | succ fuel ih =>
    cases s with
    | nil =>
      have hnull : m p = 0 := hs
      rw [skip, hnull, hspace]
      rfl
    | cons c s =>
      obtain ⟨-, hp, hrest⟩ := hs
      rw [length_cons] at hfuel
      rw [skip, hp]
      by_cases hc : space c = true
      · rw [if_pos hc, takeWhile_cons_of_pos hc, ih hrest (by omega), length_cons,
          add_assoc, add_comm 1]
      · rw [if_neg hc, takeWhile_cons_of_neg hc]
        rfl

theorem scan_eq (go : UInt8 → Bool) (last : ℕ) (hs : CStr m p s) (hfuel : s.length < fuel) :
    scan go m fuel p last =
      some (p + (s.takeWhile go).length, lastAfter last p (s.takeWhile go)) := by
  induction fuel generalizing p last s with
  | zero => omega
  | succ fuel ih =>
    cases s with
    | nil =>
      have hnull : m p = 0 := hs
      rw [scan, if_neg (by simp [hnull])]
      rfl
    | cons c s =>
      obtain ⟨hc0, hp, hrest⟩ := hs
      rw [length_cons] at hfuel
      rw [scan, hp]
      by_cases hc : go c = true
      · rw [if_pos ⟨hc0, hc⟩, takeWhile_cons_of_pos hc, ih _ hrest (by omega),
          lastAfter_cons, length_cons, add_assoc, add_comm 1]
      · rw [if_neg (fun h => hc h.2), takeWhile_cons_of_neg hc]
        rfl

theorem copyLine_eq (last : ℕ) (hs : CStr m p s) (hfuel : s.length < fuel) (hd : d ≤ p) :
    ∃ m', copyLine fuel m p d last =
        some (m', p + (s.takeWhile (· ≠ mt '\n')).length, d + (s.takeWhile (· ≠ mt '\n')).length,
          lastAfter last d (s.takeWhile (· ≠ mt '\n'))) ∧
      read m' d (s.takeWhile (· ≠ mt '\n')).length = s.takeWhile (· ≠ mt '\n') ∧
      ∀ i, i < d ∨ d + (s.takeWhile (· ≠ mt '\n')).length ≤ i → m' i = m i := by
  induction fuel generalizing m p d last s with
  | zero => omega
  | succ fuel ih =>
    cases s with
    | nil =>
      have hnull : m p = 0 := hs
      refine ⟨m, ?_, rfl, fun i _ => rfl⟩
      rw [copyLine, if_neg (by simp [hnull])]
      rfl
    | cons c s =>
      obtain ⟨hc0, hp, hrest⟩ := hs
      rw [length_cons] at hfuel
      by_cases hc : c = mt '\n'
      · refine ⟨m, ?_, ?_, fun i _ => rfl⟩
        · rw [copyLine, hp, if_neg (fun h => h.2 hc), takeWhile_cons_of_neg (by simp [hc])]
          rfl
        · rw [takeWhile_cons_of_neg (by simp [hc])]
          rfl
      have hwrite : writeByte m (p + 1) d c = some (update m d c) :=
        writeByte_of_lt (by omega)
      obtain ⟨m', hrun, hread, hsame⟩ :=
        @ih (update m d c) (p + 1) (d + 1) s
          (if isSpaceOctet c then last else d + 1)
          (hrest.update (.inl (by omega))) (by omega) (by omega)
      rw [takeWhile_cons_of_pos (by simpa using hc), length_cons]
      refine ⟨m', ?_, ?_, ?_⟩
      · rw [copyLine, hp, if_pos ⟨hc0, hc⟩, hwrite]
        simp only [update_self]
        rw [hrun, lastAfter_cons, add_assoc, add_comm 1, add_assoc, add_comm 1]
      · rw [read_succ, hread, hsame d (.inl (by omega)), update_self]
      · intro i hi
        rw [hsame i (by omega), update_of_ne (by omega)]

theorem chop_eq (ht : t ≠ []) (hread : read m d t.length = t) :
    (if m (d + t.length - 1) = mt '\r' then d + t.length - 1 else d + t.length) =
      d + (chopCR t).length := by
  induction t using List.reverseRecOn with
  | nil => exact absurd rfl ht
  | append_singleton t c =>
    rw [length_append, length_singleton, read_add] at hread
    have hc : m (d + t.length) = c := singleton_inj.mp (append_inj' hread rfl).2
    rw [chopCR, getLast?_concat, dropLast_concat, length_append,
      length_singleton, Nat.add_sub_assoc (by omega), Nat.add_sub_cancel, hc]
    by_cases hcr : c = mt '\r'
    · rw [if_pos hcr, if_pos (congrArg some hcr)]
    · rw [if_neg hcr, if_neg (fun h => hcr (Option.some.inj h)), length_append, length_singleton]

theorem startsWith_eq (space : UInt8 → Bool) (hspace : space 0 = false) (hs : CStr m p s) :
    space (m p) = startsWith space s := by
  cases s with
  | nil =>
    have hnull : m p = 0 := hs
    rw [hnull, hspace]
    rfl
  | cons c s => exact congrArg space hs.2.1

theorem exists_line (s : List UInt8) :
    (s.dropWhile (· ≠ mt '\n') = [] ∧ s = s.takeWhile (· ≠ mt '\n')) ∨
      ∃ rest, s.dropWhile (· ≠ mt '\n') = mt '\n' :: rest ∧
        s = s.takeWhile (· ≠ mt '\n') ++ mt '\n' :: rest := by
  have hsplit := takeWhile_append_dropWhile (p := (· ≠ mt '\n')) (l := s)
  cases hdrop : s.dropWhile (· ≠ mt '\n') with
  | nil =>
    rw [hdrop, append_nil] at hsplit
    exact .inl ⟨rfl, hsplit.symm⟩
  | cons c rest =>
    have hc := head?_dropWhile_not (· ≠ mt '\n') s
    rw [hdrop] at hc hsplit
    have hlf : c = mt '\n' := by simpa using hc
    rw [hlf] at hsplit ⊢
    exact .inr ⟨rest, rfl, hsplit.symm⟩

theorem takeWhile_ne_nil (hstart : startsWith isPurespaceOctet s = true) :
    s.takeWhile (· ≠ mt '\n') ≠ [] := by
  cases s with
  | nil => cases hstart
  | cons c s =>
    have hc : c ≠ mt '\n' := by
      rintro rfl
      cases hstart
    rw [takeWhile_cons_of_pos (by simpa using hc)]
    exact cons_ne_nil _ _

theorem copyLines_step (last : ℕ) {rest : List UInt8} (hs : CStr m p s)
    (hstart : startsWith isPurespaceOctet s = true) (hfuel : s.length < fuel + 1) (hd : d < p)
    (hline : s = s.takeWhile (· ≠ mt '\n') ++ mt '\n' :: rest) :
    ∃ m', copyLines (fuel + 1) m p d last =
        (if startsWith isPurespaceOctet rest = true then
          copyLines fuel m' (p + (s.takeWhile (· ≠ mt '\n')).length + 1)
            (d + (chopCR (s.takeWhile (· ≠ mt '\n'))).length)
            (lastAfter last d (s.takeWhile (· ≠ mt '\n')))
        else
          some (.ok (m', p + (s.takeWhile (· ≠ mt '\n')).length + 1,
            lastAfter last d (s.takeWhile (· ≠ mt '\n'))))) ∧
      read m' d (chopCR (s.takeWhile (· ≠ mt '\n'))).length = chopCR (s.takeWhile (· ≠ mt '\n')) ∧
      CStr m' (p + (s.takeWhile (· ≠ mt '\n')).length + 1) rest ∧
      ∀ i, i < d ∨ p + (s.takeWhile (· ≠ mt '\n')).length + 1 ≤ i → m' i = m i := by
  obtain ⟨m', hrun, hread, hsame⟩ := copyLine_eq last hs hfuel (le_of_lt hd)
  have hne := takeWhile_ne_nil hstart
  generalize s.takeWhile (· ≠ mt '\n') = t at *
  rw [hline] at hs
  have hlf : m' (p + t.length) = mt '\n' := by
    rw [hsame _ (.inr (by omega))]
    exact hs.of_append.2.1
  have hrest : CStr m' (p + t.length + 1) rest :=
    hs.of_append.2.2.congr fun i hlo _ => hsame i (.inr (by omega))
  refine ⟨m', ?_, read_of_isPrefix (chopCR_isPrefix t) hread, hrest, ?_⟩
  · rw [copyLines, hrun]
    simp only
    rw [if_pos hlf, chop_eq hne hread, startsWith_eq isPurespaceOctet rfl hrest]
  · exact fun i hi => hsame i (by omega)

theorem copyLines_eq (last : ℕ) {fuel' : ℕ} (hs : CStr m p s)
    (hstart : startsWith isPurespaceOctet s = true) (hfuel : s.length < fuel)
    (hfuel' : s.length < fuel') (hd : d < p) :
    (∀ e, readContinued fuel' s = .error e → copyLines fuel m p d last = some (.error e)) ∧
    ∀ more rest, readContinued fuel' s = .ok (more, rest) →
      ∃ before m', s = before ++ rest ∧
        copyLines fuel m p d last = some (.ok (m', p + before.length, lastAfter last d more)) ∧
        more.length < before.length ∧ read m' d more.length = more ∧
        ∀ i, i < d ∨ p + before.length ≤ i → m' i = m i := by
  induction fuel' generalizing m p d last s fuel with
  | zero => omega
  | succ fuel' ih =>
    obtain _ | fuel := fuel
    · omega
    rw [readContinued]
    rcases exists_line s with ⟨hdrop, hline⟩ | ⟨rest, hdrop, hline⟩
    · obtain ⟨m', hrun, -, hsame⟩ := copyLine_eq last hs hfuel (le_of_lt hd)
      have hend : m' (p + (s.takeWhile (· ≠ mt '\n')).length) = 0 := by
        rw [hsame _ (.inr (by omega))]
        rw [hline, ← append_nil (s.takeWhile _)] at hs
        exact hs.of_append
      have herror : copyLines (fuel + 1) m p d last = some (.error .badhdr) := by
        rw [copyLines, hrun]
        simp only
        rw [if_neg (by rw [hend]; decide)]
      rw [hdrop, herror]
      constructor
      · rintro e ⟨⟩
        rfl
      · rintro more rest ⟨⟩
    · obtain ⟨m', hrun, hread, hrest, hsame⟩ :=
        copyLines_step last hs hstart hfuel hd hline
      rw [hdrop, hrun]
      simp only
      generalize s.takeWhile (· ≠ mt '\n') = t at *
      have hlength : s.length = t.length + 1 + rest.length := by
        rw [hline, length_append, length_cons]
        omega
      by_cases hmore : startsWith isPurespaceOctet rest = true
      · have hchop := (chopCR_isPrefix t).length_le
        obtain ⟨herror, hok⟩ := @ih m' (p + t.length + 1) (d + (chopCR t).length)
          fuel rest (lastAfter last d t) hrest hmore (by omega) (by omega) (by omega)
        rw [if_pos hmore, if_pos hmore]
        cases hread' : readContinued fuel' rest with
        | error e =>
          constructor
          · rintro e' ⟨⟩
            exact herror e hread'
          · rintro more rest' ⟨⟩
        | ok read =>
          obtain ⟨more, rest'⟩ := read
          obtain ⟨before, m'', hsplit, hrun', hshort, hread'', hsame'⟩ := hok more rest' hread'
          have hlen : (t ++ mt '\n' :: before).length = t.length + 1 + before.length := by
            rw [length_append, length_cons]
            omega
          constructor
          · rintro e ⟨⟩
          · rintro more' rest'' ⟨⟩
            refine ⟨t ++ mt '\n' :: before, m'', ?_, ?_, ?_, ?_, ?_⟩
            · rw [hline, hsplit, append_assoc, cons_append]
            · rw [hrun', hlen, ← lastAfter_append, lastAfter_chopCR]
              congr 4
              omega
            · rw [hlen, length_append]
              omega
            · rw [length_append, read_add, hread'']
              congr 1
              refine (read_congr ?_).trans hread
              exact fun i _ hi => hsame' i (.inl hi)
            · intro i hi
              rw [hlen] at hi
              rw [hsame' i (by omega), hsame i (by omega)]
      · rw [if_neg hmore, if_neg hmore]
        constructor
        · rintro e ⟨⟩
        · rintro more rest' ⟨⟩
          refine ⟨t ++ [mt '\n'], m', by simp [hline], ?_, ?_, hread, ?_⟩
          · rw [lastAfter_chopCR, length_append, length_singleton, add_assoc]
          · rw [length_append, length_singleton]
            exact Nat.lt_succ_of_le (chopCR_isPrefix t).length_le
          · rw [length_append, length_singleton, ← add_assoc]
            exact hsame

theorem chopCR_cons {c : UInt8} (hc : c ≠ mt '\r') (s : List UInt8) :
    ∃ t, chopCR (c :: s) = c :: t := by
  rw [chopCR]
  split
  case isFalse => exact ⟨s, rfl⟩
  case isTrue hlast =>
    cases s with
    | nil => exact absurd (Option.some.inj hlast) hc
    | cons c' s => exact ⟨(c' :: s).dropLast, rfl⟩

theorem of_isPurespaceOctet {c : UInt8} (hc : isPurespaceOctet c = true) :
    isSpaceOctet c = true ∧ c ≠ mt '\r' ∧ c ≠ mt '\n' := by
  refine ⟨?_, ?_, ?_⟩
  · rw [isSpaceOctet, Bool.or_eq_true]
    exact .inl hc
  · rintro rfl
    exact absurd hc (by decide)
  · rintro rfl
    exact absurd hc (by decide)

theorem readContinued_cons {more rest : List UInt8} (hstart : startsWith isPurespaceOctet s = true)
    (h : readContinued fuel s = .ok (more, rest)) :
    ∃ c t, more = c :: t ∧ isSpaceOctet c = true := by
  obtain _ | fuel := fuel
  · cases h
  obtain _ | ⟨c, s⟩ := s
  · cases hstart
  have hpure : isPurespaceOctet c = true := hstart
  obtain ⟨hspace, hcr, hlf⟩ := of_isPurespaceOctet hpure
  rw [readContinued] at h
  have htake : (c :: s).takeWhile (· ≠ mt '\n') = c :: s.takeWhile (· ≠ mt '\n') :=
    takeWhile_cons_of_pos (by simpa using hlf)
  rw [htake] at h
  obtain ⟨t, ht⟩ := chopCR_cons hcr (s.takeWhile (· ≠ mt '\n'))
  rw [ht] at h
  rcases exists_line (c :: s) with ⟨hdrop, -⟩ | ⟨rest', hdrop, -⟩
  · rw [hdrop] at h
    cases h
  rw [hdrop] at h
  simp only at h
  split at h
  · cases hread : readContinued fuel rest' with
    | error e =>
      rw [hread] at h
      cases h
    | ok read =>
      rw [hread] at h
      cases h
      exact ⟨c, t ++ read.1, rfl, hspace⟩
  · cases h
    exact ⟨c, t, rfl, hspace⟩

/-! ## A value -/

/-- The part of `readField` that looks at what stands behind the colon. -/
def valueText (p : List UInt8) : Except Errnum (List UInt8 × List UInt8) :=
  let skipped := p.takeWhile isSpaceOctet
  let p := p.dropWhile isSpaceOctet
  let line := p.takeWhile (· ≠ mt '\n')
  match p.dropWhile (· ≠ mt '\n') with
  | [] => .error .badhdr
  | _ :: p =>
    if startsWith isPurespaceOctet p then
      match readContinued (p.length + 1) p with
      | .error e => .error e
      | .ok (more, p) =>
        let before := line = [] ∧ skipped.getLast? = some (mt '\r')
        .ok (trimEnd (if before then more.drop 1 else chopCR line ++ more), p)
    else .ok (trimEnd line, p)

theorem text_of_read {ptr q : ℕ} (hread : read m ptr t.length = t)
    (hlast : last = ptr + (trimEnd t).length) (hq : last < q) :
    writeByte m q last 0 = some (update m last 0) ∧
      Slice.text (update m last 0) ⟨ptr, last - ptr⟩ = trimEnd t := by
  refine ⟨writeByte_of_lt hq, ?_⟩
  change read (update m last 0) ptr (last - ptr) = trimEnd t
  rw [hlast, Nat.add_sub_cancel_left]
  refine (read_congr ?_).trans (read_of_isPrefix (trimEnd_isPrefix t) hread)
  exact fun i _ hi => update_of_ne (by omega) _ _

variable {colon : ℕ}

theorem cpydst_eq {skipped : List UInt8} (hcolon : m colon ≠ mt '\r')
    (hskipped : read m (colon + 1) skipped.length = skipped)
    (ht : read m (colon + 1 + skipped.length) t.length = t) :
    (if m (colon + 1 + skipped.length + t.length - 1) = mt '\r' then
      colon + 1 + skipped.length + t.length - 1
    else colon + 1 + skipped.length + t.length) =
      if t = [] ∧ skipped.getLast? = some (mt '\r') then colon + skipped.length
      else colon + 1 + skipped.length + (chopCR t).length := by
  by_cases hnil : t = []
  · subst hnil
    by_cases hskip : skipped = []
    · subst hskip
      rw [if_neg (by simpa using hcolon), if_neg (by simp)]
      rfl
    · have hchop := chop_eq hskip hskipped
      rw [length_nil, add_zero, hchop, chopCR]
      by_cases hcr : skipped.getLast? = some (mt '\r')
      · have hpos := length_pos_iff.mpr hskip
        rw [if_pos hcr, if_pos ⟨rfl, hcr⟩, length_dropLast]
        omega
      · rw [if_neg hcr, if_neg (fun h => hcr h.2)]
        rfl
  · rw [chop_eq hnil ht, if_neg (fun h => hnil h.1)]

/-- What the lines behind the first one add to a value: the place of `last` and the text. -/
theorem joined_text {ptr : ℕ} {skipped more : List UInt8} {b : Prop} [Decidable b]
    (hptr : ptr = colon + 1 + skipped.length) (hb : b ↔ t = [] ∧ skipped.getLast? = some (mt '\r'))
    (hmore : ∃ c u, more = c :: u ∧ isSpaceOctet c = true)
    (ht : read m ptr (chopCR t).length = chopCR t)
    (hread : read m (if b then colon + skipped.length else ptr + (chopCR t).length) more.length =
      more) :
    read m ptr (if b then more.drop 1 else chopCR t ++ more).length =
        (if b then more.drop 1 else chopCR t ++ more) ∧
      lastAfter (lastAfter ptr ptr t)
          (if b then colon + skipped.length else ptr + (chopCR t).length) more =
        ptr + (trimEnd (if b then more.drop 1 else chopCR t ++ more)).length := by
  by_cases hbefore : b
  · obtain ⟨rfl, hcr⟩ := hb.mp hbefore
    obtain ⟨c, u, rfl, hc⟩ := hmore
    have hplace : ptr = colon + skipped.length + 1 := by omega
    rw [if_pos hbefore] at hread
    rw [if_pos hbefore, if_pos hbefore, drop_one, tail_cons]
    rw [length_cons, read_succ] at hread
    constructor
    · rw [hplace]
      exact (List.cons.inj hread).2
    · rw [← lastAfter_cons, if_pos hc, ← hplace, ← lastAfter_self]
      rfl
  · rw [if_neg hbefore] at hread
    rw [if_neg hbefore, if_neg hbefore, length_append, read_add, hread, ht]
    refine ⟨rfl, ?_⟩
    rw [← lastAfter_self, ← lastAfter_append, lastAfter_chopCR]

theorem readValue_eq (hs : CStr m (colon + 1) s) (hfuel : s.length < fuel)
    (hcolon : m colon ≠ mt '\r') :
    (∀ e, valueText s = .error e → readValue fuel m colon = some (.error e)) ∧
    ∀ v rest, valueText s = .ok (v, rest) →
      ∃ before m' value, s = before ++ rest ∧
        readValue fuel m colon = some (.ok (m', colon + 1 + before.length, value)) ∧
        value.text m' = v ∧ colon < value.ptr ∧
        value.ptr + value.len < colon + 1 + before.length ∧
        ∀ i, i ≤ colon ∨ colon + 1 + before.length ≤ i → m' i = m i := by
  have hsplit := takeWhile_append_dropWhile (p := isSpaceOctet) (l := s)
  have hskip := skip_eq isSpaceOctet rfl hs hfuel
  rw [readValue, valueText, hskip]
  simp only
  generalize hskipped : s.takeWhile isSpaceOctet = skipped at *
  generalize hline : s.dropWhile isSpaceOctet = text at *
  obtain ⟨ptr, hptr⟩ : ∃ ptr, ptr = colon + 1 + skipped.length := ⟨_, rfl⟩
  have hlength : s.length = skipped.length + text.length := by
    rw [← hsplit, length_append]
  have hread0 : read m (colon + 1) skipped.length = skipped := by
    rw [← hsplit] at hs
    exact hs.read_prefix
  have htext : CStr m ptr text := by
    rw [← hsplit] at hs
    rw [hptr]
    exact hs.of_append
  rw [← hptr, scan_eq _ _ htext (by omega)]
  simp only
  rcases exists_line text with ⟨hdrop, hend⟩ | ⟨rest, hdrop, hend⟩
  · have hnull : m (ptr + (text.takeWhile (· ≠ mt '\n')).length) = 0 := by
      rw [hend, ← append_nil (text.takeWhile _)] at htext
      exact htext.of_append
    rw [hdrop, if_neg (by rw [hnull]; decide)]
    constructor
    · rintro e ⟨⟩
      rfl
    · rintro v rest ⟨⟩
  rw [hdrop]
  simp only
  generalize text.takeWhile (· ≠ mt '\n') = t at *
  rw [hend] at htext
  have hlf : m (ptr + t.length) = mt '\n' := htext.of_append.2.1
  have hrest : CStr m (ptr + t.length + 1) rest := htext.of_append.2.2
  have ht : read m ptr t.length = t := htext.read_prefix
  have hs' : s = skipped ++ (t ++ [mt '\n']) ++ rest := by
    rw [← hsplit, hend]
    simp
  have hlen : text.length = t.length + 1 + rest.length := by
    rw [hend, length_append, length_cons]
    omega
  rw [if_pos hlf, startsWith_eq isPurespaceOctet rfl hrest]
  by_cases hmore : startsWith isPurespaceOctet rest = true
  · have hchop := (chopCR_isPrefix t).length_le
    have hplace := cpydst_eq hcolon hread0 (hptr ▸ ht)
    rw [← hptr] at hplace
    rw [if_pos hmore, if_pos hmore, hplace]
    generalize hcpydst : (if t = [] ∧ skipped.getLast? = some (mt '\r') then
      colon + skipped.length else ptr + (chopCR t).length) = cpydst at *
    have hcpydst' : colon < cpydst ∧ cpydst < ptr + t.length + 1 := by
      rw [← hcpydst]
      split
      case isTrue hbefore =>
        have hpos : skipped ≠ [] := by
          rintro rfl
          cases hbefore.2
        have hpos' := length_pos_iff.mpr hpos
        omega
      case isFalse => omega
    obtain ⟨herror, hok⟩ := copyLines_eq (lastAfter ptr ptr t) hrest hmore
      (show rest.length < fuel by omega) (lt_add_one _) hcpydst'.2
    cases hread : readContinued (rest.length + 1) rest with
    | error e =>
      rw [herror e hread]
      constructor
      · rintro e' ⟨⟩
        rfl
      · rintro v rest' ⟨⟩
    | ok read =>
      obtain ⟨more, rest'⟩ := read
      obtain ⟨before, m', hsplit', hrun, hshort, hread', hsame⟩ := hok more rest' hread
      have ht' : read m' ptr (chopCR t).length = chopCR t := by
        by_cases hbefore : t = [] ∧ skipped.getLast? = some (mt '\r')
        · rw [hbefore.1]
          rfl
        · rw [if_neg hbefore] at hcpydst
          refine (read_congr ?_).trans (read_of_isPrefix (chopCR_isPrefix t) ht)
          exact fun i _ hi => hsame i (.inl (by omega))
      obtain ⟨htext', hlast⟩ := joined_text hptr Iff.rfl (readContinued_cons hmore hread) ht'
        (by rw [hcpydst]; exact hread')
      rw [hcpydst] at hlast
      have hend' : lastAfter (lastAfter ptr ptr t) cpydst more <
          ptr + t.length + 1 + before.length := by
        have hfirst : lastAfter ptr ptr t ≤ ptr + t.length :=
          lastAfter_le (Nat.le_add_right _ _) le_rfl
        have hlast' : lastAfter (lastAfter ptr ptr t) cpydst more ≤
            ptr + t.length + before.length := lastAfter_le (by omega) (by omega)
        omega
      obtain ⟨hwrite, hvalue⟩ := text_of_read htext' hlast hend'
      rw [hrun]
      simp only
      rw [hwrite]
      constructor
      · rintro e ⟨⟩
      · rintro v rest'' ⟨⟩
        have hq : colon + 1 + (skipped ++ (t ++ [mt '\n']) ++ before).length =
            ptr + t.length + 1 + before.length := by
          simp only [length_append, length_singleton]
          omega
        refine ⟨skipped ++ (t ++ [mt '\n']) ++ before, _, _, ?_, ?_, hvalue, ?_, ?_, ?_⟩
        · rw [hs', hsplit', append_assoc _ before]
        · rw [hq]
        · change colon < ptr
          omega
        · change ptr + (lastAfter (lastAfter ptr ptr t) cpydst more - ptr) < _
          omega
        · intro i hi
          rw [update_of_ne (by omega), hsame i (by omega)]
  · rw [if_neg hmore, if_neg hmore]
    simp only
    have hlast : lastAfter ptr ptr t = ptr + (trimEnd t).length := lastAfter_self ptr t
    have hshort := (trimEnd_isPrefix t).length_le
    obtain ⟨hwrite, hvalue⟩ := text_of_read (q := ptr + t.length + 1) ht hlast (by omega)
    rw [hwrite]
    constructor
    · rintro e ⟨⟩
    · rintro v rest' ⟨⟩
      have hq : colon + 1 + (skipped ++ (t ++ [mt '\n'])).length = ptr + t.length + 1 := by
        simp only [length_append, length_singleton]
        omega
      refine ⟨skipped ++ (t ++ [mt '\n']), _, _, hs', ?_, hvalue, ?_, ?_, ?_⟩
      · rw [hq]
      · change colon < ptr
        omega
      · change ptr + (lastAfter ptr ptr t - ptr) < _
        omega
      · intro i hi
        exact update_of_ne (by omega) _ _

end Qse.Http.InPlace
