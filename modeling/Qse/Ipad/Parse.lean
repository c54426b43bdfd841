import Qse.Ipad.Scan

/-!
# What `qse_mbsntoip6ad` accepts

The function stores a ninth group outside of its temporary address, and it accepts a `::` next to
eight groups. On every other string it accepts exactly the textual forms.
-/

open List

namespace Qse.Ipad

def scan (src : List UInt8) (st : Ip6Scan) : Outcome Ip6Scan :=
  (ip6Loop src st).bind flushGroup

theorem Outcome.ok_bind {α β : Type} (a : α) (f : α → Outcome β) :
    (Outcome.ok a).bind f = f a := rfl

def parse (s : List UInt8) : Outcome Ip6Scan :=
  (skipLeading s).bind fun src => scan src (scanAt [] none src false 0)

theorem parseIp6_eq (s : List UInt8) : parseIp6 s = (parse s).bind openGap := by
  rw [parseIp6, parse]
  cases skipLeading s with
  | reject => rfl
  | stray => rfl
  | ok src =>
    change (ip6Loop src (scanAt [] none src false 0)).bind _ =
      ((ip6Loop src (scanAt [] none src false 0)).bind flushGroup).bind openGap
    cases ip6Loop src (scanAt [] none src false 0) <;> rfl

/-! ## Along a form -/

variable {g bs s b1 b2 p t : List UInt8} {val v : ℕ} {gap : Option ℕ} {saw : Bool}

theorem ip6Loop_digits (hg : ∀ c ∈ g, (xdigit c).isSome) (hle : hexFrom val g ≤ 0xffff)
    (bs : List UInt8) (gap : Option ℕ) (t rest : List UInt8) :
    ip6Loop (g ++ rest) (scanAt bs gap t true val) =
      ip6Loop rest (scanAt bs gap t true (hexFrom val g)) := by
  induction g generalizing val with
  | nil => rfl
  | cons c g ih =>
    obtain ⟨d, hd⟩ := Option.isSome_iff_exists.mp (hg c (.head _))
    have hstep : hexFrom val (c :: g) = hexFrom (val * 16 + d) g := by
      rw [hexFrom, foldl_cons, hd]
      rfl
    rw [hstep] at hle ⊢
    have hfit := (le_hexFrom (val * 16 + d) g).trans hle
    rw [cons_append, ip6Loop_digit _ _ _ _ _ _ hd, if_neg (not_lt.mpr hfit)]
    exact ih (fun e he => hg e (mem_cons_of_mem c he)) hle

theorem ip6Loop_token (hne : g ≠ []) (hg : ∀ c ∈ g, (xdigit c).isSome) (hle : hexFrom 0 g ≤ 0xffff)
    (bs : List UInt8) (gap : Option ℕ) (t rest : List UInt8) :
    ip6Loop (g ++ rest) (scanAt bs gap t false 0) =
      ip6Loop rest (scanAt bs gap t true (hexFrom 0 g)) := by
  cases g with
  | nil => exact absurd rfl hne
  | cons c g =>
    obtain ⟨d, hd⟩ := Option.isSome_iff_exists.mp (hg c (.head _))
    have hstep : hexFrom 0 (c :: g) = hexFrom (0 * 16 + d) g := by
      rw [hexFrom, foldl_cons, hd]
      rfl
    rw [hstep] at hle ⊢
    have hfit := (le_hexFrom (0 * 16 + d) g).trans hle
    rw [cons_append, ip6Loop_digit _ _ _ _ _ _ hd, if_neg (not_lt.mpr hfit)]
    exact ip6Loop_digits (fun e he => hg e (mem_cons_of_mem c he)) hle bs gap t rest

theorem Group.ip6Loop (h : Group g v) (bs : List UInt8) (gap : Option ℕ) (t rest : List UInt8) :
    ip6Loop (g ++ rest) (scanAt bs gap t false 0) = Ipad.ip6Loop rest (scanAt bs gap t true v) := by
  obtain ⟨hne, hdigits, rfl, hle⟩ := h
  exact ip6Loop_token hne hdigits hle bs gap t rest

theorem flushGroup_scanAt (h : bs.length + 2 ≤ 16) (gap : Option ℕ) (t : List UInt8) (val : ℕ) :
    flushGroup (scanAt bs gap t true val) = .ok (scanAt (bs ++ groupBytes val) gap t true val) := by
  have htp : (scanAt bs gap t true val).tp = bs.length := rfl
  rw [flushGroup, htp, if_pos (by rfl), if_neg (by omega), pushGroup_scanAt h]
  rfl

theorem flushGroup_scanAt_full (h : 16 < bs.length + 2) (gap : Option ℕ) (t : List UInt8)
    (val : ℕ) : flushGroup (scanAt bs gap t true val) = .reject := by
  have htp : (scanAt bs gap t true val).tp = bs.length := rfl
  rw [flushGroup, htp, if_pos (by rfl), if_pos h]

theorem flushGroup_none (bs : List UInt8) (gap : Option ℕ) (t : List UInt8) (val : ℕ) :
    flushGroup (scanAt bs gap t false val) = .ok (scanAt bs gap t false val) := rfl

theorem Octet.hex {o : List UInt8} (h : Octet o v) :
    (∀ c ∈ o, (xdigit c).isSome) ∧ hexFrom 0 o ≤ 0xffff := by
  have hdigit : ∀ c, IsDigit c → xdigit c = some (digitValue c) := by
    intro c hc
    have hc' : mt '0' ≤ c ∧ c ≤ mt '9' := hc
    rw [xdigit, if_pos hc']
    rfl
  have hgrow : ∀ (o : List UInt8) (v : ℕ), v * 10 ^ o.length ≤ decimalFrom v o := by
    intro o
    induction o with
    | nil => intro v; simp [decimalFrom]
    | cons c o ih =>
      intro v
      calc v * 10 ^ (c :: o).length = v * 10 * 10 ^ o.length := by
            rw [length_cons, Nat.pow_succ']
            ring
        _ ≤ (v * 10 + digitValue c) * 10 ^ o.length :=
            Nat.mul_le_mul_right _ (Nat.le_add_right _ _)
        _ ≤ decimalFrom (v * 10 + digitValue c) o := ih _
  have hbound : ∀ (o : List UInt8) (v : ℕ), (∀ c ∈ o, (xdigit c).isSome) →
      hexFrom v o < (v + 1) * 16 ^ o.length := by
    intro o
    induction o with
    | nil => intro v _; simp [hexFrom]
    | cons c o ih =>
      intro v hc
      obtain ⟨d, hd⟩ := Option.isSome_iff_exists.mp (hc c (.head _))
      have hlt := xdigit_lt hd
      calc hexFrom v (c :: o) = hexFrom (v * 16 + d) o := by
            rw [hexFrom, foldl_cons, hd]
            rfl
        _ < (v * 16 + d + 1) * 16 ^ o.length :=
            ih _ fun e he => hc e (mem_cons_of_mem c he)
        _ ≤ (v + 1) * 16 * 16 ^ o.length := Nat.mul_le_mul_right _ (by omega)
        _ = (v + 1) * 16 ^ (c :: o).length := by
            rw [length_cons, Nat.pow_succ']
            ring
  have hxdigits : ∀ c ∈ o, (xdigit c).isSome := by
    intro c hc
    rw [hdigit c (h.digits c hc)]
    rfl
  have hshort : o.length ≤ 3 := by
    obtain ⟨hne, hdigits, rfl, hle, hlead⟩ := h
    cases o with
    | nil => exact absurd rfl hne
    | cons c o =>
      by_cases hc : c = mt '0'
      · rw [hlead (by rw [hc, head?_cons])]
        decide
      have hpos : digitValue c ≠ 0 :=
        fun h0 => hc ((digitValue_eq_zero (hdigits c (.head _))).mp h0)
      have hle' : decimalFrom (0 * 10 + digitValue c) o ≤ 255 := hle
      have hpow := (hgrow o _).trans hle'
      by_contra hlong
      have hthree : 10 ^ 3 ≤ 10 ^ o.length :=
        Nat.pow_le_pow_right (by decide) (by rw [length_cons] at hlong; omega)
      have hone : 1 * 10 ^ o.length ≤ (0 * 10 + digitValue c) * 10 ^ o.length :=
        Nat.mul_le_mul_right _ (by omega)
      omega
  have hpow : 16 ^ o.length ≤ 16 ^ 3 := Nat.pow_le_pow_right (by decide) hshort
  have hlt := hbound o 0 hxdigits
  exact ⟨hxdigits, by omega⟩

theorem Quad.ip6Loop {q ip : List UInt8} (h : Quad q ip) (hroom : bs.length + 4 ≤ 16)
    (gap : Option ℕ) :
    ∃ val, ip6Loop q (scanAt bs gap q false 0) = .ok (scanAt (bs ++ ip) gap q false val) := by
  obtain ⟨o1, o2, o3, o4, v1, v2, v3, v4, h1, h2, h3, h4, hq, hip⟩ := id h
  obtain ⟨hdigits, hle⟩ := h1.hex
  refine ⟨hexFrom 0 o1, ?_⟩
  conv_lhs =>
    arg 1
    rw [hq]
  rw [ip6Loop_token h1.ne_nil hdigits hle]
  exact ip6Loop_dot _ _ _ _ _ _ h hroom

theorem Units.ne_nil (h : Units s bs) : s ≠ [] := by
  cases h with
  | group h => exact h.ne_nil
  | quad h =>
    obtain ⟨o1, _, _, _, _, _, _, _, h1, -, -, -, rfl, -⟩ := h
    simp
  | cons h _ => simp

theorem Groups.ip6Loop {gs : List UInt8} (h : Groups s gs) {rest : List UInt8} (hrest : rest ≠ [])
    (hroom : bs.length + gs.length ≤ 16) (t : List UInt8) :
    ip6Loop (s ++ mt ':' :: rest) (scanAt bs gap t false 0) =
      Ipad.ip6Loop rest (scanAt (bs ++ gs) gap rest false 0) := by
  induction h generalizing bs t with
  | one h =>
    rw [groupBytes_length] at hroom
    rw [h.ip6Loop, ip6Loop_colon_group _ _ _ _ _ hrest hroom]
  | @cons g v s gs h _ ih =>
    rw [length_append, groupBytes_length] at hroom
    rw [append_assoc, cons_append, h.ip6Loop, ip6Loop_colon_group _ _ _ _ _ (by simp) (by omega),
      ih (by rw [length_append, groupBytes_length]; omega), append_assoc]

theorem Units.scan {s us : List UInt8} (h : Units s us) {bs : List UInt8} (gap : Option ℕ)
    (hroom : bs.length + us.length ≤ 16) :
    ∃ t saw val, scan s (scanAt bs gap s false 0) = .ok (scanAt (bs ++ us) gap t saw val) := by
  induction h generalizing bs with
  | @group g v h =>
    have hloop := h.ip6Loop bs gap g []
    rw [append_nil] at hloop
    refine ⟨g, true, v, ?_⟩
    rw [Ipad.scan, hloop]
    exact flushGroup_scanAt hroom gap g v
  | @quad q ip h =>
    rw [h.length] at hroom
    obtain ⟨val, hloop⟩ := h.ip6Loop hroom gap
    refine ⟨q, false, val, ?_⟩
    rw [Ipad.scan, hloop]
    rfl
  | @cons g v s us h hs ih =>
    rw [length_append, groupBytes_length] at hroom
    have hlen : (bs ++ groupBytes v).length + us.length ≤ 16 := by
      rw [length_append, groupBytes_length]
      omega
    obtain ⟨t, saw, val, hscan⟩ := ih hlen
    refine ⟨t, saw, val, ?_⟩
    rw [Ipad.scan, h.ip6Loop, ip6Loop_colon_group _ _ _ _ _ hs.ne_nil (by omega), ← append_assoc]
    exact hscan

theorem head_of_digits (hne : g ≠ []) (hg : ∀ c ∈ g, (xdigit c).isSome)
    (rest : List UInt8) : skipLeading (g ++ rest) = .ok (g ++ rest) := by
  cases g with
  | nil => exact absurd rfl hne
  | cons c g =>
    have hc : c ≠ mt ':' := by
      rintro rfl
      have hdigit := hg _ (.head _)
      rw [xdigit_colon] at hdigit
      cases hdigit
    rw [cons_append, skipLeading, if_neg hc]

theorem Groups.skipLeading {gs : List UInt8} (h : Groups s gs) (rest : List UInt8) :
    skipLeading (s ++ rest) = .ok (s ++ rest) := by
  cases h with
  | one h => exact head_of_digits h.ne_nil h.digits rest
  | cons h _ =>
    rw [append_assoc]
    exact head_of_digits h.ne_nil h.digits _

theorem Units.skipLeading {us : List UInt8} (h : Units s us) : skipLeading s = .ok s := by
  cases h with
  | group h =>
    have hskip := head_of_digits h.ne_nil h.digits []
    rwa [append_nil] at hskip
  | quad h =>
    obtain ⟨o1, _, _, _, _, _, _, _, h1, -, -, -, rfl, -⟩ := h
    exact head_of_digits h1.ne_nil h1.hex.1 _
  | cons h _ => exact head_of_digits h.ne_nil h.digits _

theorem parse_plain {us : List UInt8} (h : Units s us) (hroom : us.length ≤ 16) :
    ∃ t saw val, parse s = .ok (scanAt us none t saw val) := by
  obtain ⟨t, saw, val, hscan⟩ := @Units.scan _ _ h [] none (by simpa using hroom)
  refine ⟨t, saw, val, ?_⟩
  rw [parse, h.skipLeading]
  exact hscan

theorem parse_gapText {s1 : List UInt8} (h : Before s1 b1) (hroom : b1.length ≤ 16)
    (s2 : List UInt8) :
    parse (gapText s1 s2) = scan s2 (scanAt b1 (some b1.length) s2 false 0) := by
  rcases h with ⟨rfl, rfl⟩ | h
  · rw [parse, gapText, nil_append, skipLeading, if_pos rfl, if_neg (by simp)]
    change scan (mt ':' :: s2) _ = _
    rw [scan, ip6Loop_colon_gap]
    rfl
  · rw [parse, gapText, h.skipLeading]
    change scan (s1 ++ mt ':' :: mt ':' :: s2) _ = _
    rw [scan, h.ip6Loop (by simp) (by simpa using hroom), nil_append, ip6Loop_colon_gap]
    rfl

theorem parse_gap {s1 s2 : List UInt8} (h1 : Before s1 b1) (h2 : Behind s2 b2)
    (hroom : b1.length + b2.length ≤ 16) :
    ∃ t saw val, parse (gapText s1 s2) = .ok (scanAt (b1 ++ b2) (some b1.length) t saw val) := by
  rw [parse_gapText h1 (by omega)]
  rcases h2 with ⟨rfl, rfl⟩ | h2
  · exact ⟨[], false, 0, by rw [append_nil]; rfl⟩
  · exact h2.scan _ hroom

theorem Opened.ip6Loop {ps : List UInt8} (h : Opened p ps) {rest : List UInt8} (hrest : rest ≠ [])
    (hroom : bs.length + ps.length ≤ 16) :
    ip6Loop (p ++ rest) (scanAt bs gap (p ++ rest) false 0) =
      Ipad.ip6Loop rest (scanAt (bs ++ ps) gap rest false 0) := by
  rcases h with ⟨rfl, rfl⟩ | ⟨s, h, rfl⟩
  · rw [nil_append, append_nil]
  · rw [append_assoc, singleton_append]
    exact h.ip6Loop hrest hroom _

theorem Heading.parse (h : Heading p bs gap) (hroom : bs.length ≤ 16) (hg : Group g v)
    (rest : List UInt8) :
    parse (p ++ (g ++ rest)) = scan (g ++ rest) (scanAt bs gap (g ++ rest) false 0) := by
  have hne : g ++ rest ≠ [] := by
    intro h0
    exact hg.ne_nil (append_eq_nil_iff.mp h0).1
  cases h with
  | plain h =>
    have hskip : skipLeading (p ++ (g ++ rest)) = .ok (p ++ (g ++ rest)) := by
      rcases h with ⟨rfl, rfl⟩ | ⟨s, h, rfl⟩
      · exact head_of_digits hg.ne_nil hg.digits rest
      · rw [append_assoc]
        exact h.skipLeading _
    rw [Ipad.parse, hskip]
    change scan (p ++ (g ++ rest)) (scanAt [] none (p ++ (g ++ rest)) false 0) = _
    rw [scan, h.ip6Loop hne (by simpa using hroom)]
    rfl
  | @gap s1 b1 p bs h1 h =>
    rw [length_append] at hroom
    have hsplit : gapText s1 p ++ (g ++ rest) = gapText s1 (p ++ (g ++ rest)) := by
      rw [gapText, gapText, append_assoc, cons_append, cons_append]
    rw [hsplit, parse_gapText h1 (by omega), scan, h.ip6Loop hne hroom]
    rfl

theorem Overrun.parse (h : Overrun s) : parse s = .stray := by
  obtain ⟨p, bs, gap, g, v, rest, hp, hlen, hg, hrest, rfl⟩ := h
  rw [hp.parse (by omega) hg, scan, hg.ip6Loop, ip6Loop_colon_stray _ _ _ _ _ hrest hlen]
  rfl

/-! ## Back to the form -/

inductive Parsed : List UInt8 → List UInt8 → Option ℕ → Prop where
  | empty : Parsed [] [] none
  | plain {s bs : List UInt8} (h : Units s bs) : Parsed s bs none
  | gap {s1 b1 s2 b2 : List UInt8} (h1 : Before s1 b1) (h2 : Behind s2 b2) :
      Parsed (gapText s1 s2) (b1 ++ b2) (some b1.length)

theorem Opened.behind {ps tb : List UInt8} (h : Opened p ps) (ht : Units t tb) :
    Behind (p ++ t) (ps ++ tb) := .inr (h.units ht)

theorem Heading.parsed {tb : List UInt8} (h : Heading p bs gap)
    (ht : Units t tb) : Parsed (p ++ t) (bs ++ tb) gap := by
  cases h with
  | plain h => exact .plain (h.units ht)
  | @gap s1 b1 p ps h1 h =>
    rw [append_assoc, gapText, append_assoc, cons_append, cons_append]
    exact .gap h1 (h.behind ht)

structure Scanned (p g src bs : List UInt8) (gap : Option ℕ) (saw : Bool) (val : ℕ) : Prop where
  heading : Heading p bs gap
  token : (g = [] ∧ saw = false ∧ val = 0) ∨ (Group g val ∧ saw = true)
  room : bs.length ≤ 16
  start : p = [] → g = [] → src.head? ≠ some (mt ':')
  more : src = [] → g = [] → Parsed p bs gap

theorem Scanned.digit {src : List UInt8} {d : ℕ} {c : UInt8}
    (h : Scanned p g (c :: src) bs gap saw val) (hc : xdigit c = some d)
    (hfit : val * 16 + d ≤ 0xffff) :
    Scanned p (g ++ [c]) src bs gap true (val * 16 + d) := by
  refine ⟨h.heading, .inr ⟨⟨by simp, ?_, ?_, hfit⟩, rfl⟩, h.room, by simp, by simp⟩
  · intro e he
    rcases mem_append.mp he with he | he
    · rcases h.token with ⟨rfl, -⟩ | ⟨hg, -⟩
      · cases he
      · exact hg.digits e he
    · rw [mem_singleton.mp he, hc]
      rfl
  · have hval : hexFrom 0 g = val := by
      rcases h.token with ⟨rfl, -, rfl⟩ | ⟨hg, -⟩
      · rfl
      · exact hg.value
    rw [hexFrom_append, hval, hexFrom, foldl_cons, hc]
    rfl

/-- What a scan has accepted is a form, and it strays only behind eight groups. -/
theorem scan_sound {src : List UInt8} (h : Scanned p g src bs gap saw val) :
    (∀ st, scan src (scanAt bs gap (g ++ src) saw val) = .ok st →
      ∃ bs' gap' t saw' val', st = scanAt bs' gap' t saw' val' ∧ bs'.length ≤ 16 ∧
        Parsed (p ++ (g ++ src)) bs' gap') ∧
    (scan src (scanAt bs gap (g ++ src) saw val) = .stray → Overrun (p ++ (g ++ src))) := by
  induction src generalizing p g bs gap saw val with
  | nil =>
    have hroom := h.room
    rw [append_nil, scan, ip6Loop]
    change (∀ st, flushGroup _ = .ok st → _) ∧ (flushGroup _ = .stray → _)
    rcases h.token with ⟨rfl, rfl, rfl⟩ | ⟨hg, rfl⟩
    · rw [flushGroup_none]
      refine ⟨?_, by simp⟩
      rintro _ ⟨⟩
      rw [append_nil]
      exact ⟨bs, gap, [], false, 0, rfl, hroom, h.more rfl rfl⟩
    · by_cases hfit : bs.length + 2 ≤ 16
      · rw [flushGroup_scanAt hfit]
        refine ⟨?_, by simp⟩
        rintro _ ⟨⟩
        refine ⟨_, gap, g, true, val, rfl, ?_, h.heading.parsed (.group hg)⟩
        rw [length_append, groupBytes_length]
        exact hfit
      · rw [flushGroup_scanAt_full (by omega)]
        simp
  | cons c src ih =>
    cases hc : xdigit c with
    | some d =>
      rw [scan, ip6Loop_digit _ _ _ _ _ _ hc]
      by_cases hfit : val * 16 + d ≤ 0xffff
      · rw [if_neg (not_lt.mpr hfit)]
        have hnext := ih (h.digit hc hfit)
        rw [append_assoc, singleton_append] at hnext
        exact hnext
      · rw [if_pos (Nat.lt_of_not_le hfit)]
        simp [Outcome.bind]
    | none =>
      by_cases hcolon : c = mt ':'
      · subst hcolon
        rcases h.token with ⟨rfl, rfl, rfl⟩ | ⟨hg, rfl⟩
        · -- a second colon opens the gap
          cases hheading : h.heading with
          | gap h1 hp =>
            rw [scan, ip6Loop_colon_second]
            simp [Outcome.bind]
          | plain hp =>
            rw [scan, ip6Loop_colon_gap]
            rcases hp with ⟨rfl, rfl⟩ | ⟨s, hs, rfl⟩
            · exact absurd rfl (h.start rfl rfl)
            have hgap : gapText s [] = (s ++ [mt ':']) ++ [mt ':'] := by
              rw [gapText, append_assoc]
              rfl
            have hnext : Scanned (gapText s []) [] src bs (some bs.length) false 0 := by
              refine ⟨?_, .inl ⟨rfl, rfl, rfl⟩, h.room, ?_, ?_⟩
              · have hhead := @Heading.gap _ _ [] [] (.inr hs) (.inl ⟨rfl, rfl⟩)
                rwa [append_nil] at hhead
              · intro h0
                rw [hgap] at h0
                simp at h0
              · intro _ _
                have hparsed := @Parsed.gap _ _ [] [] (.inr hs)
                  (.inl ⟨rfl, rfl⟩)
                rwa [append_nil] at hparsed
            have hout := ih hnext
            rw [hgap] at hout
            rw [append_assoc (s ++ [mt ':'])] at hout
            exact hout
        · by_cases hrest : src = []
          · subst hrest
            rw [scan, ip6Loop_colon_last]
            simp [Outcome.bind]
          · have hdvd := h.heading.two_dvd
            have hroom := h.room
            by_cases hfit : bs.length + 2 ≤ 16
            · rw [scan, ip6Loop_colon_group _ _ _ _ _ hrest hfit]
              have hnext : Scanned (p ++ (g ++ [mt ':'])) [] src (bs ++ groupBytes val) gap
                  false 0 := by
                refine ⟨h.heading.snoc hg, .inl ⟨rfl, rfl, rfl⟩, ?_, by simp,
                  fun h0 => absurd h0 hrest⟩
                rw [length_append, groupBytes_length]
                exact hfit
              have hout := ih hnext
              rw [append_assoc p, append_assoc g] at hout
              exact hout
            · rw [scan, ip6Loop_colon_stray _ _ _ _ _ hrest (by omega)]
              refine ⟨by simp [Outcome.bind], fun _ => ?_⟩
              exact ⟨p, bs, gap, g, val, src, h.heading, by omega, hg, hrest, rfl⟩
      · by_cases hdot : c = mt '.' ∧ bs.length + 4 ≤ 16 ∧ ∃ ip, Quad (g ++ c :: src) ip
        · obtain ⟨rfl, hfit, ip, hq⟩ := hdot
          rw [scan, ip6Loop_dot _ _ _ _ _ _ hq hfit]
          refine ⟨?_, by simp [Outcome.bind, flushGroup_none]⟩
          rintro _ ⟨⟩
          refine ⟨_, gap, _, false, val, rfl, ?_, h.heading.parsed (.quad hq)⟩
          rw [length_append, hq.length]
          exact hfit
        · rw [scan, ip6Loop_other _ _ _ _ _ _ hc hcolon hdot]
          simp [Outcome.bind]

theorem parse_sound (s : List UInt8) :
    (∀ st, parse s = .ok st → ∃ bs gap t saw val, st = scanAt bs gap t saw val ∧
      bs.length ≤ 16 ∧ Parsed s bs gap) ∧
    (parse s = .stray → Overrun s) := by
  have hplain : ∀ s : List UInt8, s.head? ≠ some (mt ':') → Scanned [] [] s [] none false 0 := by
    intro s hs
    exact ⟨.plain (.inl ⟨rfl, rfl⟩), .inl ⟨rfl, rfl, rfl⟩, Nat.zero_le 16, fun _ _ => hs,
      fun _ _ => .empty⟩
  cases s with
  | nil => exact scan_sound (hplain [] (by simp))
  | cons c src =>
    by_cases hc : c = mt ':'
    · subst hc
      rw [parse, skipLeading, if_pos rfl]
      cases src with
      | nil => simp [Outcome.bind]
      | cons d s2 =>
        by_cases hd : d = mt ':'
        · subst hd
          rw [if_neg (by simp)]
          have hgap : Scanned (gapText [] []) [] s2 [] (some 0) false 0 :=
            ⟨.gap (.inl ⟨rfl, rfl⟩) (.inl ⟨rfl, rfl⟩), .inl ⟨rfl, rfl, rfl⟩,
              Nat.zero_le 16, fun h0 => by simp [gapText] at h0,
              fun _ _ => .gap (.inl ⟨rfl, rfl⟩) (.inl ⟨rfl, rfl⟩)⟩
          have hout := scan_sound hgap
          change (∀ st, scan (mt ':' :: s2) (scanAt [] none _ false 0) = .ok st → _) ∧
            (scan (mt ':' :: s2) (scanAt [] none _ false 0) = .stray → _)
          rw [scan, ip6Loop_colon_gap]
          exact hout
        · rw [if_pos (by simpa using hd)]
          simp [Outcome.bind]
    · have hskip : skipLeading (c :: src) = .ok (c :: src) := by rw [skipLeading, if_neg hc]
      rw [parse, hskip]
      exact scan_sound (hplain (c :: src) (by simpa using hc))

theorem shiftGap_getElem? {colonp n d : ℕ} (hd : colonp + n + d = 16) (hpos : 0 < d) {k : ℕ}
    (hk : k ≤ n) {tmp : List UInt8} (htmp : tmp.length = 16) (j : ℕ) :
    (shiftGap colonp n k tmp)[j]? = if colonp + d ≤ j ∧ j < colonp + d + k then tmp[j - d]?
      else if colonp ≤ j ∧ j < colonp + k then some 0 else tmp[j]? := by
  induction k generalizing tmp with
  | zero =>
    rw [shiftGap]
    rw [if_neg (by omega), if_neg (by omega)]
  | succ k ih =>
    have hsource : n - (n - k) = k := by omega
    have htarget : 16 - (n - k) = colonp + d + k := by omega
    rw [shiftGap]
    simp only [hsource, htarget]
    rw [ih (by omega) (by simp [htmp])]
    simp only [getElem?_set, length_set, htmp, getD_eq_getElem?_getD]
    grind

theorem shiftGap_eq (hlen : b1.length + b2.length < 16) :
    shiftGap b1.length b2.length b2.length
        ((b1 ++ b2) ++ List.replicate (16 - (b1 ++ b2).length) 0) =
      b1 ++ List.replicate (16 - (b1.length + b2.length)) 0 ++ b2 := by
  apply ext_getElem?
  intro j
  have hd : b1.length + b2.length + (16 - (b1.length + b2.length)) = 16 := by omega
  rw [shiftGap_getElem? hd (by omega) le_rfl (by simp; omega)]
  simp only [getElem?_append, length_append, getElem?_replicate, length_replicate]
  grind

theorem openGap_gap (hlen : b1.length + b2.length < 16) :
    openGap (scanAt (b1 ++ b2) (some b1.length) t saw val) =
      .ok (b1 ++ List.replicate (16 - (b1.length + b2.length)) 0 ++ b2) := by
  have hn : (b1 ++ b2).length - b1.length = b2.length := by
    rw [length_append, Nat.add_sub_cancel_left]
  rw [openGap]
  simp only [scanAt]
  rw [hn, shiftGap_eq hlen]

theorem openGap_none :
    openGap (scanAt bs none t saw val) = if bs.length ≠ 16 then .reject else .ok bs := by
  by_cases hlen : bs.length = 16
  · simp [openGap, scanAt, hlen]
  · simp [openGap, scanAt, hlen]

/-! ## The result -/

theorem Denotes.parseIp6 {addr : List UInt8} (h : Denotes s addr) : parseIp6 s = .ok addr := by
  rw [parseIp6_eq]
  cases h with
  | full h hlen =>
    obtain ⟨t, saw, val, hparse⟩ := parse_plain h (by omega)
    rw [hparse, Outcome.ok_bind, openGap_none, if_neg (not_not.mpr hlen)]
  | gap h1 h2 hlen =>
    obtain ⟨t, saw, val, hparse⟩ := parse_gap h1 h2 (by omega)
    rw [hparse]
    exact openGap_gap hlen

theorem denotes_of_parseIp6 {addr : List UInt8} (h : parseIp6 s = .ok addr)
    (hc : ¬Crowded s) : Denotes s addr := by
  rw [parseIp6_eq] at h
  cases hparse : parse s with
  | reject | stray => simp [hparse, Outcome.bind] at h
  | ok st =>
    obtain ⟨bs, gap, t, saw, val, rfl, hlen, hparsed⟩ := (parse_sound s).1 st hparse
    rw [hparse, Outcome.ok_bind] at h
    cases hparsed with
    | empty => simp [openGap_none] at h
    | plain hu =>
      rw [openGap_none] at h
      split at h
      · cases h
      · rename_i hfull
        cases h
        exact .full hu (not_not.mp hfull)
    | @gap s1 b1 s2 b2 h1 h2 =>
      rw [length_append] at hlen
      have hlt : b1.length + b2.length < 16 := by
        refine lt_of_le_of_ne hlen fun heq => hc ?_
        exact ⟨s1, b1, s2, b2, h1, h2, heq, rfl⟩
      rw [openGap_gap hlt] at h
      cases h
      exact .gap h1 h2 hlt

/-- A `::` next to eight groups is accepted, but denotes nothing. -/
theorem Crowded.accepted (h : Crowded s) :
    (∃ addr, parseIp6 s = .ok addr) ∧ ∀ addr, ¬Denotes s addr := by
  obtain ⟨s1, b1, s2, b2, h1, h2, hlen, rfl⟩ := h
  obtain ⟨t, saw, val, hparse⟩ := parse_gap h1 h2 (by omega)
  constructor
  · rw [parseIp6_eq, hparse]
    exact ⟨_, rfl⟩
  · intro addr hden
    have hstate : ∀ bs' gap' t' saw' val', parse (gapText s1 s2) =
        .ok (scanAt bs' gap' t' saw' val') → bs'.length = 16 ∧ gap' = some b1.length := by
      intro bs' gap' t' saw' val' h'
      rw [hparse] at h'
      simp only [Outcome.ok.injEq, scanAt, Ip6Scan.mk.injEq, length_append] at h'
      exact ⟨by omega, h'.2.2.1.symm⟩
    generalize hs : gapText s1 s2 = s at hden hstate
    cases hden with
    | full hu hlen' =>
      obtain ⟨t', saw', val', hparse'⟩ := parse_plain hu (by omega)
      simpa using (hstate _ _ _ _ _ hparse').2
    | gap h1' h2' hlen' =>
      obtain ⟨t', saw', val', hparse'⟩ := parse_gap h1' h2' (by omega)
      have hfull := (hstate _ _ _ _ _ hparse').1
      rw [length_append] at hfull
      omega

/-- `qse_mbsntoip6ad` stays inside its temporary address, accepts exactly the
textual forms, yields the address they denote, and leaves the output alone when
it rejects. -/
def MeetsForm (s ipad : List UInt8) : Prop :=
  ∃ ok addr, mbsntoip6ad s ipad = some (ok, addr) ∧
    (∀ a, Denotes s a → ok = true ∧ addr = a) ∧ (ok = true → Denotes s addr) ∧
    (ok = false → addr = ipad)

/-- It does so exactly for the strings that have no ninth group with a colon and
more behind it, and no `::` next to eight groups. -/
theorem meetsForm_iff (s ipad : List UInt8) : MeetsForm s ipad ↔ ¬Overrun s ∧ ¬Crowded s := by
  constructor
  · rintro ⟨ok, addr, hrun, hden, hok, -⟩
    constructor
    · intro hover
      have hstray : parseIp6 s = .stray := by
        rw [parseIp6_eq, hover.parse]
        rfl
      rw [mbsntoip6ad, hstray] at hrun
      cases hrun
    · intro hcrowded
      obtain ⟨⟨a, ha⟩, hnone⟩ := hcrowded.accepted
      rw [mbsntoip6ad, ha] at hrun
      cases hrun
      exact hnone _ (hok rfl)
  · rintro ⟨hover, hcrowded⟩
    cases hparse : parseIp6 s with
    | ok addr =>
      refine ⟨true, addr, by rw [mbsntoip6ad, hparse], ?_, ?_, by simp⟩
      · intro a ha
        have hsame := ha.parseIp6
        rw [hparse] at hsame
        cases hsame
        exact ⟨rfl, rfl⟩
      · exact fun _ => denotes_of_parseIp6 hparse hcrowded
    | reject =>
      refine ⟨false, ipad, by rw [mbsntoip6ad, hparse], ?_, by simp, fun _ => rfl⟩
      intro a ha
      have hsame := ha.parseIp6
      rw [hparse] at hsame
      cases hsame
    | stray =>
      rw [parseIp6_eq] at hparse
      cases hp : parse s with
      | stray => exact absurd ((parse_sound s).2 hp) hover
      | reject => simp [hp, Outcome.bind] at hparse
      | ok st =>
        rw [hp, Outcome.ok_bind, openGap] at hparse
        split at hparse
        · cases hparse
        · split at hparse <;> cases hparse

/-- Ten groups of one digit: the ninth group is stored behind the address. -/
theorem not_meetsForm_ten_groups : ¬∀ s ipad, MeetsForm s ipad := by
  intro h
  obtain ⟨ok, addr, hrun, -⟩ :=
    h [49, 58, 50, 58, 51, 58, 52, 58, 53, 58, 54, 58, 55, 58, 56, 58, 57, 58, 48] []
  have hstray : mbsntoip6ad
      [49, 58, 50, 58, 51, 58, 52, 58, 53, 58, 54, 58, 55, 58, 56, 58, 57, 58, 48] [] = none := by
    decide
  rw [hstray] at hrun
  cases hrun

end Qse.Ipad
