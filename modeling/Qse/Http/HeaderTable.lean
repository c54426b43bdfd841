import Qse.Http.InPlace

/-!
# The header table in the receive buffer

The fields that are read in place are those that `readField` tells, and the table holds them to the
end.
-/

open Function List

namespace Qse.Http.InPlace

open ByteMemory

variable {m : Mem} {p fuel : ℕ} {s t : List UInt8} {strict : Bool}

/-! ## A field -/

theorem exists_name (s : List UInt8) :
    (s.dropWhile (fun c => c ≠ mt '\n' ∧ c ≠ mt ':') = [] ∧
        s = s.takeWhile (fun c => c ≠ mt '\n' ∧ c ≠ mt ':')) ∨
      ∃ c rest, s.dropWhile (fun c => c ≠ mt '\n' ∧ c ≠ mt ':') = c :: rest ∧
        (c = mt '\n' ∨ c = mt ':') ∧
        s = s.takeWhile (fun c => c ≠ mt '\n' ∧ c ≠ mt ':') ++ c :: rest := by
  have hsplit := takeWhile_append_dropWhile (p := fun c => c ≠ mt '\n' ∧ c ≠ mt ':') (l := s)
  cases hdrop : s.dropWhile (fun c => c ≠ mt '\n' ∧ c ≠ mt ':') with
  | nil =>
    rw [hdrop, append_nil] at hsplit
    exact .inl ⟨rfl, hsplit.symm⟩
  | cons c rest =>
    have hc := head?_dropWhile_not (fun c => c ≠ mt '\n' ∧ c ≠ mt ':') s
    rw [hdrop] at hc hsplit
    refine .inr ⟨c, rest, rfl, ?_, hsplit.symm⟩
    simp only [head?_cons, decide_eq_false_iff_not, not_and, not_not] at hc
    by_cases hlf : c = mt '\n'
    · exact .inl hlf
    · exact .inr (hc hlf)

variable {rest : List UInt8} {r : Reader} {opts : Options} {re re' : Re}

theorem readField_colon (hdrop : s.dropWhile (fun c => c ≠ mt '\n' ∧ c ≠ mt ':') = mt ':' :: rest) :
    Http.readField strict s = (valueText rest).map fun r =>
      (some (trimEnd (s.takeWhile fun c => c ≠ mt '\n' ∧ c ≠ mt ':'), r.1), r.2) := by
  rw [Http.readField, hdrop, valueText]
  simp only [if_true]
  cases (rest.dropWhile isSpaceOctet).dropWhile (· ≠ mt '\n') with
  | nil => rfl
  | cons c rest =>
    simp only
    split
    · cases readContinued (rest.length + 1) rest with
      | error e | ok read => rfl
    · rfl

structure Reads (m m' : Mem) (p q : ℕ) (name value : Slice) (field : Field) : Prop where
  nameText : name.text m' = field.1
  valueText : value.text m' = field.2
  nameEnd : name.ptr + name.len ≤ q
  valueEnd : value.ptr + value.len ≤ q
  same : ∀ i, i < p ∨ q ≤ i → m' i = m i

theorem readField_bare (hs : CStr m p s) (hfuel : s.length < fuel)
    (hcolon : m (p + (s.takeWhile fun c => c ≠ mt '\n' ∧ c ≠ mt ':').length) ≠ mt ':')
    (hstop : isSpaceOctet (m (p + (s.takeWhile fun c => c ≠ mt '\n' ∧ c ≠ mt ':').length)) =
      false) :
    readField strict fuel m p = if strict then some (.error .badhdr)
      else if m (p + (s.takeWhile fun c => c ≠ mt '\n' ∧ c ≠ mt ':').length) = mt '\n' then
        some (.ok (m, p + (s.takeWhile fun c => c ≠ mt '\n' ∧ c ≠ mt ':').length + 1, none))
      else some (.error .badhdr) := by
  obtain _ | fuel := fuel
  · omega
  rw [readField, scan_eq (fun c => c ≠ mt '\n' ∧ c ≠ mt ':') p hs hfuel]
  simp only
  rw [if_neg hcolon, skip, hstop]
  rfl

theorem readField_named (strict : Bool) (hs : CStr m p s) (hfuel : s.length < fuel)
    (hname : s = s.takeWhile (fun c => c ≠ mt '\n' ∧ c ≠ mt ':') ++ mt ':' :: rest) :
    (∀ e, valueText rest = .error e → readField strict fuel m p = some (.error e)) ∧
    ∀ v rest', valueText rest = .ok (v, rest') →
      ∃ before m' name value, s = before ++ rest' ∧ before ≠ [] ∧
        readField strict fuel m p = some (.ok (m', p + before.length, some (name, value))) ∧
        Reads m m' p (p + before.length) name value
          (trimEnd (s.takeWhile fun c => c ≠ mt '\n' ∧ c ≠ mt ':'), v) := by
  have hscan := scan_eq (fun c => c ≠ mt '\n' ∧ c ≠ mt ':') p hs hfuel
  rw [readField, hscan]
  simp only
  generalize (s.takeWhile fun c => c ≠ mt '\n' ∧ c ≠ mt ':') = t at *
  have hlength : s.length = t.length + 1 + rest.length := by
    rw [hname, length_append, length_cons]
    omega
  rw [hname] at hs
  have hcolon : m (p + t.length) = mt ':' := hs.of_append.2.1
  have hlast : lastAfter p p t = p + (trimEnd t).length := lastAfter_self p t
  have hshort := (trimEnd_isPrefix t).length_le
  obtain ⟨hwrite, hnameText⟩ := text_of_read (q := p + t.length + 1) hs.read_prefix hlast (by omega)
  rw [if_pos hcolon, hwrite]
  simp only
  generalize hm1 : update m (lastAfter p p t) 0 = m1 at *
  have hrest : CStr m1 (p + t.length + 1) rest := by
    rw [← hm1]
    exact hs.of_append.2.2.update (.inl (by omega))
  have hcr : m1 (p + t.length) ≠ mt '\r' := by
    rw [← hm1, update_apply, hcolon]
    split <;> decide
  obtain ⟨herror, hok⟩ := readValue_eq hrest (show rest.length < fuel by omega) hcr
  constructor
  · intro e he
    rw [herror e he]
  · intro v rest' hv
    obtain ⟨before, m', value, hsplit, hrun, hvalue, hlo, hhi, hsame⟩ := hok v rest' hv
    have hq : p + (t ++ mt ':' :: before).length = p + t.length + 1 + before.length := by
      rw [length_append, length_cons]
      omega
    refine ⟨t ++ mt ':' :: before, m', ⟨p, lastAfter p p t - p⟩, value, ?_, by simp, ?_, ?_⟩
    · rw [hname, hsplit, append_assoc, cons_append]
    · rw [hrun, hq]
    · rw [hq]
      refine ⟨?_, hvalue, ?_, le_of_lt hhi, ?_⟩
      · refine Eq.trans (read_congr ?_) hnameText
        intro i _ hi
        change i < p + (lastAfter p p t - p) at hi
        exact hsame i (.inl (by omega))
      · change p + (lastAfter p p t - p) ≤ _
        omega
      · intro i hi
        rw [hsame i (by omega), ← hm1, update_of_ne (by omega)]

theorem readField_eq (strict : Bool) (hs : CStr m p s) (hfuel : s.length < fuel) :
    (∀ e, Http.readField strict s = .error e → readField strict fuel m p = some (.error e)) ∧
    (∀ rest, Http.readField strict s = .ok (none, rest) → ∃ before, s = before ++ rest ∧
      before ≠ [] ∧ readField strict fuel m p = some (.ok (m, p + before.length, none))) ∧
    ∀ field rest, Http.readField strict s = .ok (some field, rest) →
      ∃ before m' name value, s = before ++ rest ∧ before ≠ [] ∧
        readField strict fuel m p = some (.ok (m', p + before.length, some (name, value))) ∧
        Reads m m' p (p + before.length) name value field := by
  rcases exists_name s with ⟨hdrop, hname⟩ | ⟨c, rest, hdrop, rfl | rfl, hname⟩
  · have hend : m (p + (s.takeWhile fun c => c ≠ mt '\n' ∧ c ≠ mt ':').length) = 0 := by
      have hs' := hs
      rw [hname, ← append_nil (s.takeWhile _)] at hs'
      exact hs'.of_append
    have hzero : ¬(0 : UInt8) = mt '\n' := by decide
    have hrun : readField strict fuel m p = some (.error .badhdr) := by
      rw [readField_bare hs hfuel (by rw [hend]; decide) (by rw [hend]; rfl), hend,
        if_neg hzero, ite_self]
    rw [Http.readField, hdrop, hrun]
    refine ⟨?_, ?_, ?_⟩
    · rintro e ⟨⟩
      rfl
    · rintro rest ⟨⟩
    · rintro field rest ⟨⟩
  · have hlf : m (p + (s.takeWhile fun c => c ≠ mt '\n' ∧ c ≠ mt ':').length) = mt '\n' := by
      have hs' := hs
      rw [hname] at hs'
      exact hs'.of_append.2.1
    rw [readField_bare hs hfuel (by rw [hlf]; decide) (by rw [hlf]; rfl), Http.readField, hdrop,
      if_pos hlf]
    simp only
    rw [if_neg (by decide)]
    cases strict with
    | true =>
      refine ⟨?_, ?_, ?_⟩
      · rintro e ⟨⟩
        rfl
      · rintro rest ⟨⟩
      · rintro field rest ⟨⟩
    | false =>
      refine ⟨?_, ?_, ?_⟩
      · rintro e ⟨⟩
      · rintro rest' ⟨⟩
        refine ⟨s.takeWhile (fun c => c ≠ mt '\n' ∧ c ≠ mt ':') ++ [mt '\n'], ?_, by simp, ?_⟩
        · rw [append_assoc]
          exact hname
        · rw [length_append, length_singleton, ← add_assoc]
          rfl
      · rintro field rest ⟨⟩
  · obtain ⟨herror, hok⟩ := readField_named strict hs hfuel hname
    rw [readField_colon hdrop]
    cases hvalue : valueText rest with
    | error e =>
      refine ⟨?_, ?_, ?_⟩
      · rintro e' ⟨⟩
        exact herror e hvalue
      · rintro rest ⟨⟩
      · rintro field rest ⟨⟩
    | ok r =>
      refine ⟨?_, ?_, ?_⟩
      · rintro e ⟨⟩
      · rintro rest ⟨⟩
      · rintro field rest' ⟨⟩
        exact hok r.1 r.2 hvalue

namespace SliceTable

variable {m' : Mem} {tab : SliceTable} {name value : Slice}

theorem any_contents (m : Mem) (tab : SliceTable) (n : List UInt8) :
    ((tab.contents m).any fun pair => pair.1 = n) = tab.any fun pair => pair.1.text m = n := by
  rw [contents, any_map]
  rfl

theorem contents_insert (m : Mem) (tab : SliceTable) (name value : Slice) :
    (tab.insert m name value).contents m =
      (tab.contents m).insert (name.text m) (value.text m) := by
  rw [Table.insert, any_contents, insert]
  split
  · rw [contents, contents, map_map, map_map]
    apply map_congr_left
    intro pair _
    simp only [comp_apply]
    by_cases hpair : pair.1.text m = name.text m
    · rw [if_pos hpair, if_pos hpair, map_append]
      rfl
    · rw [if_neg hpair, if_neg hpair]
  · rw [contents, map_append]
    rfl

theorem values_contents (m : Mem) (tab : SliceTable) (n : List UInt8) :
    (tab.values m n).map (Slice.text m) = (tab.contents m).values n := by
  rw [values, Table.values, contents, find?_map]
  change _ = ((Option.map _ (tab.find? fun pair => pair.1.text m = n)).map Prod.snd).getD []
  cases tab.find? fun pair => pair.1.text m = n with
  | none => rfl
  | some pair => rfl

/-- All names and values stand before `p`. -/
def Before (p : ℕ) (tab : SliceTable) : Prop :=
  ∀ pair ∈ tab, pair.1.ptr + pair.1.len ≤ p ∧ ∀ value ∈ pair.2, value.ptr + value.len ≤ p

theorem Before.mono {q : ℕ} (h : tab.Before p) (hpq : p ≤ q) : tab.Before q := by
  intro pair hpair
  obtain ⟨hname, hvalues⟩ := h pair hpair
  exact ⟨hname.trans hpq, fun value hvalue => (hvalues value hvalue).trans hpq⟩

theorem Before.insert (h : tab.Before p) (hname : name.ptr + name.len ≤ p)
    (hvalue : value.ptr + value.len ≤ p) : (tab.insert m name value).Before p := by
  rw [SliceTable.insert]
  split
  · intro pair hpair
    obtain ⟨old, hold, rfl⟩ := mem_map.mp hpair
    obtain ⟨hkey, hvalues⟩ := h old hold
    split
    · refine ⟨hkey, ?_⟩
      intro v hv
      rcases mem_append.mp hv with hv | hv
      · exact hvalues v hv
      · rwa [mem_singleton.mp hv]
    · exact ⟨hkey, hvalues⟩
  · intro pair hpair
    rcases mem_append.mp hpair with hpair | hpair
    · exact h pair hpair
    · rw [mem_singleton.mp hpair]
      refine ⟨hname, ?_⟩
      intro v hv
      rwa [mem_singleton.mp hv]

theorem text_of_same (hsame : ∀ i, i < p → m' i = m i) (hname : name.ptr + name.len ≤ p) :
    name.text m' = name.text m :=
  read_congr fun i _ hi => hsame i (by omega)

theorem contents_of_same (hsame : ∀ i, i < p → m' i = m i) (h : tab.Before p) :
    tab.contents m' = tab.contents m := by
  apply map_congr_left
  intro pair hpair
  obtain ⟨hname, hvalues⟩ := h pair hpair
  rw [text_of_same hsame hname]
  congr 1
  exact map_congr_left fun value hvalue => text_of_same hsame (hvalues value hvalue)

end SliceTable

/-! ## The whole header -/

/-- `re` with its table of octets. -/
def Reader.whole (r : Reader) : Re := { r.re with hdrtab := r.hdrtab.contents r.mem }

theorem captureKeyHeader_hdrtab (re : Re) (tab : Table) (name : List UInt8)
    (values : List (List UInt8)) :
    captureKeyHeader { re with hdrtab := tab } name values =
      (captureKeyHeader re name values).map fun re => { re with hdrtab := tab } := by
  rw [captureKeyHeader, captureKeyHeader]
  split
  case h_2 => rfl
  case h_1 handler hfound =>
    obtain ⟨key, hmem, -⟩ := mem_of_searchKeyHeader hfound
    simp only [keyHeaders, mem_cons, Prod.mk.injEq, not_mem_nil, or_false] at hmem
    rcases hmem with ⟨-, rfl⟩ | ⟨-, rfl⟩ | ⟨-, rfl⟩ | ⟨-, rfl⟩ | ⟨-, rfl⟩
    · simp only [captureConnection]
      split
      · rfl
      · split
        · rfl
        · split <;> rfl
    · simp only [captureContentLength]
      split
      · rfl
      · split
        · rfl
        · split <;> rfl
    · rfl
    · rfl
    · simp only [captureTransferEncoding]
      split
      · split <;> rfl
      · rfl

theorem insertField_eq (r : Reader) (name value : Slice) :
    (∀ e, Http.insertField false r.whole (name.text r.mem) (value.text r.mem) = .error e →
      insertField r name value = .error e) ∧
    ∀ re', Http.insertField false r.whole (name.text r.mem) (value.text r.mem) = .ok re' →
      ∃ re, insertField r name value =
          .ok { r with hdrtab := r.hdrtab.insert r.mem name value, re := re } ∧
        re' = { re with hdrtab := (r.hdrtab.insert r.mem name value).contents r.mem } := by
  have hfun : Http.insertField false r.whole (name.text r.mem) (value.text r.mem) =
      (captureKeyHeader r.re (name.text r.mem)
        (((r.hdrtab.insert r.mem name value).values r.mem (name.text r.mem)).map
          (Slice.text r.mem))).map fun re =>
        { re with hdrtab := (r.hdrtab.insert r.mem name value).contents r.mem } := by
    rw [← captureKeyHeader_hdrtab, SliceTable.values_contents, SliceTable.contents_insert]
    rfl
  rw [hfun, insertField]
  cases captureKeyHeader r.re (name.text r.mem)
      (((r.hdrtab.insert r.mem name value).values r.mem (name.text r.mem)).map
        (Slice.text r.mem)) with
  | error e =>
    constructor
    · rintro e' ⟨⟩
      rfl
    · rintro re' ⟨⟩
  | ok re =>
    constructor
    · rintro e ⟨⟩
    · rintro re' ⟨⟩
      exact ⟨re, rfl, rfl⟩

theorem parseHeaderField_eq (opts : Options) (hs : CStr r.mem p s) (hfuel : s.length < fuel)
    (htab : r.hdrtab.Before p) :
    (∀ e, Http.parseHeaderField opts false r.whole s = .error e →
      parseHeaderField opts fuel r p = some (.error e)) ∧
    ∀ re' rest, Http.parseHeaderField opts false r.whole s = .ok (re', rest) →
      ∃ before r', s = before ++ rest ∧ before ≠ [] ∧
        parseHeaderField opts fuel r p = some (.ok (r', p + before.length)) ∧
        r'.whole = re' ∧ CStr r'.mem (p + before.length) rest ∧
        r'.hdrtab.Before (p + before.length) ∧ ∀ i, i < p → r'.mem i = r.mem i := by
  obtain ⟨herror, hbare, hfield⟩ := readField_eq opts.strict hs hfuel
  rw [Http.parseHeaderField, parseHeaderField]
  cases hread : Http.readField opts.strict s with
  | error e =>
    rw [herror e hread]
    constructor
    · rintro e' ⟨⟩
      rfl
    · rintro re' rest ⟨⟩
  | ok read =>
    obtain ⟨field, rest⟩ := read
    cases field with
    | none =>
      obtain ⟨before, hsplit, hne, hrun⟩ := hbare rest hread
      rw [hrun]
      constructor
      · rintro e ⟨⟩
      · rintro re' rest' ⟨⟩
        rw [hsplit] at hs
        exact ⟨before, r, hsplit, hne, rfl, rfl, hs.of_append,
          htab.mono (Nat.le_add_right _ _), fun i _ => rfl⟩
    | some field =>
      obtain ⟨before, m', name, value, hsplit, hne, hrun, hreads⟩ := hfield field rest hread
      rw [hrun]
      simp only
      have hsame : ∀ i, i < p → m' i = r.mem i := fun i hi => hreads.same i (.inl hi)
      have hwhole : Reader.whole { r with mem := m' } = r.whole := by
        rw [Reader.whole, Reader.whole, SliceTable.contents_of_same hsame htab]
      obtain ⟨herror', hok'⟩ := insertField_eq { r with mem := m' } name value
      simp only [hwhole, hreads.nameText, hreads.valueText] at herror' hok'
      cases hinsert : Http.insertField false r.whole field.1 field.2 with
      | error e =>
        rw [herror' e hinsert]
        constructor
        · rintro e' ⟨⟩
          rfl
        · rintro re' rest' ⟨⟩
      | ok re' =>
        obtain ⟨re, hrun', hre⟩ := hok' re' hinsert
        rw [hrun']
        constructor
        · rintro e ⟨⟩
        · rintro re'' rest' ⟨⟩
          refine ⟨before, _, hsplit, hne, rfl, hre.symm, ?_, ?_, hsame⟩
          · rw [hsplit] at hs
            exact hs.of_append.congr fun i hlo _ => hreads.same i (.inr hlo)
          · exact (htab.mono (Nat.le_add_right _ _)).insert hreads.nameEnd hreads.valueEnd

theorem parseHeaders_eq (opts : Options) {fuel' : ℕ} (hs : CStr r.mem p s) (hfuel : s.length < fuel)
    (hfuel' : s.length < fuel') (htab : r.hdrtab.Before p) :
    (∀ e, Http.parseHeaders opts false fuel' r.whole s = .error e →
      parseHeaders opts fuel r p = some (.error e)) ∧
    ∀ re', Http.parseHeaders opts false fuel' r.whole s = .ok re' →
      ∃ r', parseHeaders opts fuel r p = some (.ok r') ∧ r'.whole = re' ∧
        ∀ i, i < p → r'.mem i = r.mem i := by
  induction fuel' generalizing r p s fuel with
  | zero => omega
  | succ fuel' ih =>
    obtain _ | fuel := fuel
    · omega
    have hsplit := takeWhile_append_dropWhile (p := isWhspaceOctet) (l := s)
    rw [Http.parseHeaders, parseHeaders, skip_eq isWhspaceOctet rfl hs hfuel]
    simp only
    generalize s.takeWhile isWhspaceOctet = spaces at *
    generalize s.dropWhile isWhspaceOctet = text at *
    subst hsplit
    have htext := hs.of_append
    rw [length_append] at hfuel hfuel'
    obtain _ | ⟨c, text⟩ := text
    · have hnull : r.mem (p + spaces.length) = 0 := htext
      rw [if_pos hnull]
      constructor
      · rintro e ⟨⟩
      · rintro re' ⟨⟩
        exact ⟨r, rfl, rfl, fun i _ => rfl⟩
    obtain ⟨hc0, hc, -⟩ := id htext
    have hne : r.mem (p + spaces.length) ≠ 0 := by rwa [hc]
    rw [if_neg hne]
    obtain ⟨herror, hok⟩ := parseHeaderField_eq opts htext
      (show (c :: text).length < fuel + 1 by omega)
      (htab.mono (Nat.le_add_right p spaces.length))
    cases hread : Http.parseHeaderField opts false r.whole (c :: text) with
    | error e =>
      rw [herror e hread]
      simp only [hread]
      constructor
      · rintro e' ⟨⟩
        rfl
      · rintro re' ⟨⟩
    | ok read =>
      obtain ⟨re, rest⟩ := read
      obtain ⟨before, r', hsplit, hbefore, hrun, hwhole, hrest, htab', hsame⟩ :=
        hok re rest hread
      have hlength : (c :: text).length = before.length + rest.length := by
        rw [hsplit, length_append]
      have hpos := length_pos_iff.mpr hbefore
      obtain ⟨herror', hok'⟩ := @ih _ fuel _ r' hrest (by omega) (by omega) htab'
      rw [hrun]
      simp only [hread]
      rw [← hwhole]
      refine ⟨herror', ?_⟩
      intro re' hre'
      obtain ⟨r'', hrun', hwhole', hsame'⟩ := hok' re' hre'
      refine ⟨r'', hrun', hwhole', ?_⟩
      intro i hi
      rw [hsame' i (by omega), hsame i (by omega)]

/-! ## The initial line -/

theorem string_eq (hs : CStr m p s) (hfuel : s.length < fuel) : string m fuel p = s := by
  induction fuel generalizing p s with
  | zero => omega
  | succ fuel ih =>
    cases s with
    | nil => exact if_pos hs
    | cons c s =>
      obtain ⟨hc0, hp, hrest⟩ := hs
      rw [length_cons] at hfuel
      rw [string, hp, if_neg hc0, ih hrest (by omega)]

theorem parseRequestLine_suffix {method : List UInt8}
    (h : parseRequestLine opts method re s = .ok (re', rest)) : rest <:+ s := by
  simp only [parseRequestLine] at h
  split at h
  · cases h
  rename_i c text hurl
  have htext : text <:+ s := by
    apply (suffix_cons c text).trans
    rw [← hurl]
    exact dropWhile_suffix _
  split at h
  · rename_i h1 h2 h3 h4 h5 h6 h7 h8 version hversion
    have hversion' : version <:+ text := by
      have hcons : version <:+ h1 :: h2 :: h3 :: h4 :: h5 :: h6 :: h7 :: h8 :: version :=
        ⟨[h1, h2, h3, h4, h5, h6, h7, h8], rfl⟩
      apply hcons.trans
      rw [← hversion]
      exact dropWhile_suffix _
    split at h
    · split at h
      · split at h
        · cases h
        · rename_i c' rest' hend
          split at h
          · cases h
            apply (suffix_cons c' rest).trans
            rw [← hend]
            exact (dropWhile_suffix _).trans (hversion'.trans htext)
          · cases h
      · cases h
    · cases h
  · cases h

theorem parseStatusLine_suffix {name : List UInt8}
    (h : parseStatusLine name re s = .ok (re', rest)) : rest <:+ s := by
  simp only [parseStatusLine] at h
  split at h
  · rename_i c1 c2 c3 c4 c5 text
    have htext : text <:+ c1 :: c2 :: c3 :: c4 :: c5 :: text := ⟨[c1, c2, c3, c4, c5], rfl⟩
    split at h
    · split at h
      · split at h
        · cases h
        · split at h
          · cases h
          · rename_i c rest' hend
            cases h
            apply (suffix_cons c rest).trans
            rw [← hend]
            apply (dropWhile_suffix _).trans
            apply (dropWhile_suffix _).trans
            apply (dropWhile_suffix _).trans
            exact (dropWhile_suffix _).trans htext
      · cases h
    · cases h
  · cases h

theorem parseInitialLine_suffix
    (h : parseInitialLine opts re s = .ok (re', rest)) : rest <:+ s := by
  have hline : ∀ re1, parseLine opts s re = .ok (re1, rest) → rest <:+ s := by
    intro re1 hre1
    simp only [parseLine] at hre1
    split at hre1
    · split at hre1
      · apply (parseRequestLine_suffix hre1).trans
        exact (dropWhile_suffix _).trans (dropWhile_suffix _)
      · cases hre1
    · split at hre1
      · exact (parseStatusLine_suffix hre1).trans (dropWhile_suffix _)
      · cases hre1
  rw [parseInitialLine_eq] at h
  split at h
  · cases h
  split at h
  · cases h
  · rename_i re1 rest' hre1
    split at h
    · cases h
      exact hline re1 hre1
    · cases h
      exact hline re' hre1

theorem parseBeforeFields_suffix
    (h : parseBeforeFields opts re s = .ok (re', rest)) : rest <:+ s := by
  rw [parseBeforeFields] at h
  split at h
  · cases h
    exact dropWhile_suffix _
  · exact (parseInitialLine_suffix h).trans (dropWhile_suffix _)

theorem parseBeforeFields_hdrtab
    (h : parseBeforeFields opts re s = .ok (re', rest)) : re'.hdrtab = re.hdrtab := by
  rw [parseBeforeFields] at h
  split at h
  · cases h
    rfl
  · obtain ⟨⟨parsed, keepalive, rfl⟩, -⟩ := parseInitialLine_ok h
    rfl

theorem parseInitialLineAndHeaders_bind (opts : Options) (re : Re) (s : List UInt8) :
    Http.parseInitialLineAndHeaders opts re s = (parseBeforeFields opts re s).bind fun read =>
        Http.parseHeaders opts false (read.2.length + 1) read.1 read.2 := by
  rw [Http.parseInitialLineAndHeaders, parseBeforeFields]
  split
  · rfl
  · cases parseInitialLine opts re (s.dropWhile isSpaceOctet) <;> rfl

theorem parseInitialLineAndHeaders_eq (opts : Options) (hs : CStr r.mem p s)
    (hfuel : s.length < fuel) (htab : r.hdrtab.Before p)
    (hwhole : r.re.hdrtab = r.hdrtab.contents r.mem) :
    (∀ e, Http.parseInitialLineAndHeaders opts r.re s = .error e →
      parseInitialLineAndHeaders opts fuel r p = some (.error e)) ∧
    ∀ re', Http.parseInitialLineAndHeaders opts r.re s = .ok re' →
      ∃ r', parseInitialLineAndHeaders opts fuel r p = some (.ok r') ∧ r'.whole = re' := by
  rw [parseInitialLineAndHeaders_bind, parseInitialLineAndHeaders, string_eq hs hfuel]
  cases hbefore : parseBeforeFields opts r.re s with
  | error e =>
    constructor
    · rintro e' ⟨⟩
      rfl
    · rintro re' ⟨⟩
  | ok read =>
    obtain ⟨re, rest⟩ := read
    obtain ⟨before, rfl⟩ := parseBeforeFields_suffix hbefore
    have hplace : p + (before ++ rest).length - rest.length = p + before.length := by
      rw [length_append]
      omega
    have hre : Reader.whole { r with re := re } = re := by
      rw [Reader.whole, ← hwhole, ← parseBeforeFields_hdrtab hbefore]
    rw [length_append] at hfuel
    obtain ⟨herror, hok⟩ := parseHeaders_eq opts
      (r := { r with re := re }) hs.of_append (show rest.length < fuel by omega)
      (lt_add_one _)
      (htab.mono (Nat.le_add_right _ _))
    rw [hre] at herror hok
    simp only [hplace]
    refine ⟨herror, ?_⟩
    intro re' hre'
    obtain ⟨r', hrun, hwhole', -⟩ := hok re' hre'
    exact ⟨r', hrun, hwhole'⟩

end Qse.Http.InPlace
