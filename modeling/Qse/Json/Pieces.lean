import Qse.Json.Widths

/-!
# Documents in pieces

A document whose characters the build can hold is accepted however its bytes are cut into
calls, and the client is told of what stands in it.
-/

namespace Qse.JsonFeed

variable {ctype : Mctype} {instcb : Instcb}

/-- Pieces of data are fed one behind the other, each behind the data that was left of those in
front of it. -/
def feedPieces (ctype : Mctype) (instcb : Instcb) :
    Json → List UInt8 → List (List UInt8) → Except Stop (Json × List UInt8)
  | json, left, [] => .ok (json, left)
  | json, left, piece :: pieces => do
    let (json, left) ← feed ctype instcb json (left ++ piece)
    feedPieces ctype instcb json left pieces

variable {data : List UInt8} {pieces : List (List UInt8)}

theorem nextChar_append {rest : List UInt8} {w : UInt32} (more : List UInt8)
    (h : nextChar ctype.size data = some (w, rest)) :
    nextChar ctype.size (data ++ more) = some (w, rest ++ more) ∧ rest.length < data.length := by
  cases data with
  | nil => cases h
  | cons b tail =>
    rw [List.cons_append]
    rcases Utf8.utf8touc_append more with ⟨n, hinc⟩ | hsame
    · rw [nextChar, hinc] at h
      cases h
    rw [nextChar] at h
    rw [nextChar, hsame]
    split at h
    · cases h
      exact ⟨rfl, Nat.lt_succ_self _⟩
    · rename_i n uc hchar
      cases h
      obtain ⟨cur, -, -, -, hget⟩ := Utf8.utf8touc_eq_some hchar
      have hn := Utf8.trailing_le_length hget
      refine ⟨?_, ?_⟩
      · rw [← List.cons_append, List.drop_append_of_le_length (Nat.succ_le_succ hn)]
      · rw [List.drop_succ_cons, List.length_drop, List.length_cons]
        omega
    · cases h

theorem feedJsonData_of_le {steps : ℕ} {json : Json} (h : data.length ≤ steps) :
    feedJsonData ctype instcb steps json data = feed ctype instcb json data := by
  have hsucc : ∀ {steps : ℕ} {json : Json} {data : List UInt8}, data.length ≤ steps →
      feedJsonData ctype instcb (steps + 1) json data =
        feedJsonData ctype instcb steps json data := by
    intro steps
    induction steps with
    | zero =>
      intro json data h
      rw [List.eq_nil_of_length_eq_zero (Nat.le_zero.mp h)]
      rfl
    | succ steps ih =>
      intro json data h
      rw [feedJsonData, feedJsonData]
      cases hnext : nextChar ctype.size data with
      | none => rfl
      | some p =>
        obtain ⟨c, rest⟩ := p
        have hlt := (nextChar_append [] hnext).2
        dsimp only
        congr 1
        funext json
        exact ih (by omega)
  rw [feed]
  induction steps, h using Nat.le_induction with
  | base => rfl
  | succ steps h ih => rw [hsucc h, ih]

theorem feed_none {json : Json} (h : nextChar ctype.size data = none) :
    feed ctype instcb json data = .ok (json, data) := by
  rw [← feedJsonData_of_le (Nat.le_succ _), feedJsonData, h]

theorem feed_some {json : Json} {rest : List UInt8} {c : UInt32}
    (h : nextChar ctype.size data = some (c, rest)) : feed ctype instcb json data =
      handleChar ctype instcb json c >>= fun json => feed ctype instcb json rest := by
  have hlt := (nextChar_append [] h).2
  rw [← feedJsonData_of_le (Nat.le_succ _), feedJsonData, h]
  dsimp only
  congr 1
  funext json
  exact feedJsonData_of_le (by omega)

/-- What is left holds no complete character, and is taken up by the next call. -/
theorem feed_append (json : Json) (data : List UInt8) :
    (∀ json' left, feed ctype instcb json data = .ok (json', left) →
      nextChar ctype.size left = none) ∧
    ∀ more, feed ctype instcb json (data ++ more) =
      feed ctype instcb json data >>= fun p => feed ctype instcb p.1 (p.2 ++ more) := by
  induction hlen : data.length using Nat.strong_induction_on generalizing json data with
  | _ k ih =>
  cases hnext : nextChar ctype.size data with
  | none =>
    rw [feed_none hnext]
    refine ⟨fun json' left heq => ?_, fun more => rfl⟩
    cases heq
    exact hnext
  | some p =>
    obtain ⟨c, rest⟩ := p
    have hlt := (nextChar_append [] hnext).2
    rw [feed_some hnext]
    refine ⟨fun json' left heq => ?_, fun more => ?_⟩
    · cases hc : handleChar ctype instcb json c with
      | error e =>
        rw [hc] at heq
        cases heq
      | ok json₁ =>
        rw [hc] at heq
        exact (ih _ (hlen ▸ hlt) json₁ rest rfl).1 json' left heq
    · rw [feed_some (nextChar_append more hnext).1]
      cases handleChar ctype instcb json c with
      | error e => rfl
      | ok json₁ => exact (ih _ (hlen ▸ hlt) json₁ rest rfl).2 more

theorem feedPieces_eq_feed : ∀ {json : Json} {left : List UInt8},
    nextChar ctype.size left = none →
      feedPieces ctype instcb json left pieces =
        feed ctype instcb json (left ++ pieces.flatten) := by
  induction pieces with
  | nil =>
    intro json left hleft
    rw [List.flatten_nil, List.append_nil, feed_none hleft]
    rfl
  | cons piece pieces ih =>
    intro json left hleft
    obtain ⟨hnone, hmore⟩ := @feed_append ctype instcb json (left ++ piece)
    rw [List.flatten_cons, ← List.append_assoc, hmore, feedPieces]
    cases hfeed : feed ctype instcb json (left ++ piece) with
    | error e => rfl
    | ok p => exact ih (hnone _ _ hfeed)

/-- However any bytes are cut into calls, whatever the client answers, and whether they are accepted
or not, the outcome is the same: the parser with what the client was told and the bytes left, or
the failure. -/
theorem feedPieces_congr (json : Json) {pieces pieces' : List (List UInt8)}
    (h : pieces.flatten = pieces'.flatten) :
    feedPieces ctype instcb json [] pieces = feedPieces ctype instcb json [] pieces' := by
  rw [feedPieces_eq_feed rfl, feedPieces_eq_feed rfl, h]

/-- A call ends inside the key `é`, or in front of it. -/
theorem feedPieces_congr_split :
    feedPieces (Mctype.ascii .two) takeAll Json.open [] [[123, 34, 195], [169, 34]] =
      feedPieces (Mctype.ascii .two) takeAll Json.open [] [[123], [], [34, 195, 169, 34]] :=
  feedPieces_congr Json.open rfl

theorem nextChar_encode {size : Utf8.WcharSize} {cs : List UInt32} {later : List UInt8}
    (h : Utf8.encode cs = some (data ++ later)) (hne : data ≠ []) :
    (∃ w ws rest, cs = w :: ws ∧ nextChar size data = some (size.store w, rest) ∧
      rest.length < data.length ∧ Utf8.encode ws = some (rest ++ later)) ∨
    (nextChar size data = none ∧ later ≠ []) := by
  obtain ⟨b, tail, rfl⟩ := List.exists_cons_of_ne_nil hne
  rcases Utf8.utf8touc_encode h with ⟨n, w, ws, rfl, hchar, -, hws⟩ | ⟨⟨n, hchar, -⟩, hlater⟩
  · have hread : Utf8.utf8touc size (b :: tail) = (n + 1, some (size.store w)) := by
      rw [Utf8.utf8touc_store, hchar, Option.map_some]
    refine .inl ⟨w, ws, tail.drop n, rfl, ?_, ?_, hws⟩
    · simp only [nextChar, hread, List.drop_succ_cons]
    · rw [List.length_drop, List.length_cons]
      omega
  · have hread : Utf8.utf8touc size (b :: tail) = (n + 1, none) := by
      rw [Utf8.utf8touc_store, hchar, Option.map_none]
    exact .inr ⟨by rw [nextChar, hread], hlater⟩

theorem feedJsonData_encode : ∀ (steps : ℕ) {cs : List UInt32} {data later : List UInt8},
    data.length ≤ steps → Utf8.encode cs = some (data ++ later) →
      ∃ done left cs', cs = done ++ cs' ∧ Utf8.encode cs' = some (left ++ later) ∧
        nextChar ctype.size left = none ∧ ∀ json, feedJsonData ctype instcb steps json data =
          run ctype instcb json (done.map ctype.size.store) >>= fun json => .ok (json, left)
  | 0, cs, data, later, hsteps, hcs => by
    obtain rfl : data = [] := List.eq_nil_of_length_eq_zero (by omega)
    exact ⟨[], [], cs, rfl, hcs, rfl, fun json => rfl⟩
  | steps + 1, cs, data, later, hsteps, hcs => by
    by_cases hnext : nextChar ctype.size data = none
    · refine ⟨[], data, cs, rfl, hcs, hnext, fun json => ?_⟩
      rw [feedJsonData, hnext]
      rfl
    have hne : data ≠ [] := by
      rintro rfl
      exact hnext rfl
    obtain ⟨w, ws, rest, rfl, hnext, hlt, hws⟩ :=
      (nextChar_encode hcs hne).resolve_right fun h => hnext h.1
    obtain ⟨done, left, cs', rfl, hcs', hleft, hfeed⟩ :=
      @feedJsonData_encode steps _ rest later (by omega) hws
    refine ⟨w :: done, left, cs', rfl, hcs', hleft, fun json => ?_⟩
    simp only [feedJsonData, hnext, List.map_cons, run_cons]
    cases handleChar ctype instcb json (ctype.size.store w) with
    | error e => rfl
    | ok json => exact hfeed json

theorem feedPieces_eq_run : ∀ {cs : List UInt32}
    {left : List UInt8}, Utf8.encode cs = some (left ++ pieces.flatten) →
      nextChar ctype.size left = none → ∀ json, feedPieces ctype instcb json left pieces =
        run ctype instcb json (cs.map ctype.size.store) >>= fun json => .ok (json, []) := by
  induction pieces with
  | nil =>
    intro cs left hcs hleft json
    rw [List.flatten_nil] at hcs
    have hnil : left = [] := by
      by_contra hne
      rcases nextChar_encode hcs hne with ⟨w, ws, rest, -, hnext, -⟩ | ⟨-, hlater⟩
      · rw [hleft] at hnext
        cases hnext
      · exact hlater rfl
    subst hnil
    cases cs with
    | nil => rfl
    | cons w ws =>
      obtain ⟨as, more, has, -, heq⟩ := Utf8.encode_cons.1 hcs
      obtain ⟨n, hlen, -⟩ := Utf8.utf8touc_of_uctoutf8 has
      obtain ⟨rfl, -⟩ := List.append_eq_nil_iff.1 heq.symm
      cases hlen
  | cons piece pieces ih =>
    intro cs left hcs hleft json
    rw [List.flatten_cons, ← List.append_assoc] at hcs
    obtain ⟨done, left', cs', rfl, hcs', hleft', hfeed⟩ :=
      @feedJsonData_encode ctype instcb (left ++ piece).length cs _ _ le_rfl hcs
    rw [feedPieces, feed, hfeed, List.map_append, run_append]
    cases hrun : run ctype instcb json (done.map ctype.size.store) with
    | error e => rfl
    | ok json' => exact ih hcs' hleft' json'

/-- The parser accepts what it is fed: it is at the start again, nothing is left, and the
instructions are the traversal of the document. -/
def Accepts (ctype : Mctype) (instcb : Instcb) (root : Value) (pieces : List (List UInt8)) : Prop :=
  ∃ json, feedPieces ctype instcb Json.open [] pieces = .ok (json, []) ∧ json.stack = [] ∧
    json.insts = root.insts

/-- A document is accepted, however its bytes are cut into calls, if and only if characters have
four bytes or none of those of the document needs more than two. -/
theorem feedPieces_document_iff (hfails : NeverFails instcb) {root : Value} {text : List UInt32}
    (hdoc : DocumentText root text) {pieces : List (List UInt8)}
    (hpieces : Utf8.encode text = some pieces.flatten) :
    Accepts ctype instcb root pieces ↔ (ctype.size = .two → ∀ c ∈ text, c.toNat < 2 ^ 16) := by
  have hleft : Utf8.encode text = some ([] ++ pieces.flatten) := hpieces
  rw [Accepts, feedPieces_eq_run hleft rfl]
  constructor
  · rintro ⟨json, hrun, -, hinsts⟩ htwo c hc
    obtain ⟨json', hrun', heq⟩ := bind_eq_ok.1 hrun
    cases heq
    have hopen : Json.open.Fits ctype.size := ⟨by simp [Json.open], by simp [Json.open],
      by simp [Json.open, Json.insts]⟩
    have hstored : ∀ w ∈ text.map ctype.size.store, ctype.size.Fits w := by
      intro w hw
      obtain ⟨v, -, rfl⟩ := List.mem_map.1 hw
      exact fits_store v
    have htold := (run_fits hopen hstored hrun').told
    rw [hinsts] at htold
    exact Utf8.fits_iff.1 (hdoc.fits htold c hc) htwo
  · intro hfit
    have hstore : text.map ctype.size.store = text :=
      Utf8.map_store fun c hc => Utf8.fits_iff.2 fun htwo => hfit htwo c hc
    obtain ⟨json, hrun, hstack, hinsts⟩ := @run_document ctype instcb text hfails root hdoc
    exact ⟨json, by rw [hstore, hrun, ok_bind], hstack, hinsts⟩

def accented : Value := .dic (.one [233] (.array (.one (.number (chars "-2.5")))))

theorem feedPieces_document_accented :
    Accepts (Mctype.ascii .two) takeAll accented
      [[123, 34, 195], [], [169, 34, 58, 32, 91, 45, 50], [46, 53, 93, 125]] := by
  have hnumeral : Numeral (chars "-2.5") :=
    ⟨chars "-", chars "2", chars ".5", by decide, .inr (by decide),
      .inr ⟨'2'.val, [], by decide, ⟨by decide, by decide⟩, by decide, by simp⟩,
      .inr ⟨chars "5", by decide, by decide, by simp [chars, IsDigit]⟩⟩
  have hbody : Body [233] [233] := .plain (by decide) (by decide) (by decide) (by decide) .nil
  have hempty : Ws [] := by simp [Ws]
  have hspace : Ws [32] := by simp [Ws]
  have hdoc : DocumentText accented (chars "\x7b\"é\": [-2.5]\x7d") :=
    ⟨trivial, [], _, [], hempty,
      ⟨chars "\"é\": [-2.5]", ⟨[], chars "\"é\"", [], [32], chars "[-2.5]", [], hempty,
        ⟨[233], hbody, by decide⟩, hempty, hspace,
        ⟨chars "-2.5", ⟨[], _, [], hempty, ⟨hnumeral, rfl⟩, hempty, by decide⟩, by decide⟩,
        hempty, by decide⟩, rfl⟩,
      hempty, by decide⟩
  exact (feedPieces_document_iff (fun _ _ _ => rfl) hdoc (by decide +kernel)).2
    fun _ => List.all_iff_forall_prop.1 (by decide)

def beyond : Value := .array (.one (.string [0x10041]))

/-- In two bytes the character `10041` is an `A`. -/
theorem not_accepts_beyond : ∃ text pieces, DocumentText beyond text ∧
    Utf8.encode text = some pieces.flatten ∧
      ¬Accepts (Mctype.ascii .two) takeAll beyond pieces := by
  have hbody : Body [0x10041] [0x10041] :=
    .plain (by decide) (by decide) (by decide) (by decide) .nil
  have hempty : Ws [] := by simp [Ws]
  refine ⟨['['.val, '\"'.val, 0x10041, '\"'.val, ']'.val],
    [[91, 34, 240, 144], [129, 129, 34, 93]], ?_, by decide +kernel, ?_⟩
  · exact ⟨trivial, [], _, [], hempty, ⟨_, ⟨[], _, [], hempty, ⟨_, hbody, rfl⟩, hempty, rfl⟩, rfl⟩,
      hempty, rfl⟩
  · rintro ⟨json, hfed, -, hinsts⟩
    have htold : (feedPieces (Mctype.ascii .two) takeAll Json.open []
        [[91, 34, 240, 144], [129, 129, 34, 93]]).toOption.map (·.1.insts) =
          some [(.startArray, none), (.string, some [0x41]), (.endArray, none)] := by
      decide +kernel
    rw [hfed] at htold
    have hsame : json.insts = _ := Option.some.inj htold
    rw [hinsts] at hsame
    revert hsame
    decide

end Qse.JsonFeed
