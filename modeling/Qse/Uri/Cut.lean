import Qse.Uri.Split

/-!
# The functions

The loops together: a string is cut into its components, or it is refused.
-/

open List Option

namespace Qse.Uri

variable {α : Type} [DecidableEq α] {m : Marks α} {text body : List α} {xuri : Uri} {str : ℕ}

def FirstColon (m : Marks α) (text : List α) : Prop :=
  ∃ scheme rest, text = scheme ++ m.colon :: m.slash :: m.slash :: rest ∧ m.colon ∉ scheme

theorem setTail_eq (flags : Flags) (xuri : Uri) (str : ℕ) (hpath : xuri.path = .null)
    (hquery : xuri.query = .null)
    (hfrag : xuri.frag = .null) (hended : Ended m body) (hnul : m.nul ∉ body) :
    ∃ path query frag, body = path.getD [] ++ (optText m.question query ++ optText m.hash frag) ∧
      Tail m flags path query frag ∧
      setTail m flags xuri (body ++ [m.nul]) str =
        some { xuri with
          path := optSlice str path
          query := optSlice (str + (path.getD []).length + 1) query
          frag := optSlice (str + (path.getD []).length + (optText m.question query).length + 1)
            frag } := by
  obtain ⟨-, hslash, -⟩ := m.distinct
  rcases hended with rfl | ⟨t, rfl⟩
  · refine ⟨none, none, none, rfl,
      ⟨nofun, fun _ => ⟨rfl, rfl⟩, nofun, fun hne => absurd rfl hne⟩, ?_⟩
    rw [nil_append, setTail, if_neg hslash]
    cases xuri with
    | mk scheme user pass host port path query frag =>
      obtain rfl : path = .null := hpath
      obtain rfl : query = .null := hquery
      obtain rfl : frag = .null := hfrag
      rfl
  obtain ⟨path, tail, hbody, hfree, htail, hrun⟩ :=
    setPath_eq flags xuri str hnul
  have hnul' : m.nul ∉ tail := fun hmem => hnul (by rw [hbody]; simp [hmem])
  obtain ⟨query, rest, rfl, hasked, hrest, hrun'⟩ := setQuery_eq flags
    { xuri with path := ⟨some str, path.length⟩ } (str + path.length)
    hquery htail hnul'
  have hnul'' : m.nul ∉ rest := fun hmem => hnul' (by simp [hmem])
  obtain ⟨frag, rfl, hallowed, hrun''⟩ := setFrag_eq flags
    { xuri with
      path := ⟨some str, path.length⟩, query := optSlice (str + path.length + 1) query }
    (str + path.length + (optText m.question query).length) hfrag hrest hnul''
  refine ⟨some path, query, frag, hbody, ⟨?_, nofun, hasked, hallowed⟩, ?_⟩
  · rintro p ⟨⟩
    refine ⟨?_, hfree⟩
    cases path with
    | cons c p => exact ⟨p, congrArg (· :: p) (List.cons.inj hbody).1.symm⟩
    | nil =>
      obtain ⟨hquestion, hhash⟩ := m.slash_ne
      have htail' : optText m.question query ++ optText m.hash frag = m.slash :: t :=
        hbody.symm
      rcases htail with (hnil | ⟨u, hu, -⟩) | ⟨u, hu, -⟩
      · rw [htail'] at hnil
        cases hnil
      · exact absurd (List.cons.inj (htail'.symm.trans hu)).1 hhash
      · exact absurd (List.cons.inj (htail'.symm.trans hu)).1 hquestion
  · rw [cons_append, setTail, if_pos rfl, ← cons_append, hrun]
    simp only [bind_eq_bind, bind_some, hrun', hrun'']
    rfl

theorem schemeLoop_eq (hnul : m.nul ∉ body) (str : ℕ) :
    (m.colon ∉ body → schemeLoop m (body ++ [m.nul]) str = some none) ∧
      ∀ scheme rest, body = scheme ++ m.colon :: rest → m.colon ∉ scheme →
        schemeLoop m (body ++ [m.nul]) str =
          some (some (m.colon :: (rest ++ [m.nul]), str + scheme.length)) := by
  obtain ⟨hcolon, -⟩ := m.distinct
  induction body generalizing str with
  | nil =>
    refine ⟨fun _ => by simp [schemeLoop, hcolon], fun scheme rest hbody => ?_⟩
    simp at hbody
  | cons c body ih =>
    obtain ⟨hc, hbody⟩ := not_or.mp (mem_cons.not.mp hnul)
    obtain ⟨hfails, hfinds⟩ := ih hbody (str + 1)
    rw [cons_append, schemeLoop]
    by_cases hfirst : c = m.colon
    · rw [if_pos hfirst]
      constructor
      · exact fun hnot => absurd (by rw [hfirst]; simp) hnot
      · intro scheme rest hsplit hnot
        cases scheme with
        | nil =>
          obtain ⟨-, rfl⟩ := List.cons.inj hsplit
          rw [hfirst]
          rfl
        | cons d scheme =>
          obtain ⟨rfl, -⟩ := List.cons.inj hsplit
          exact absurd (by rw [hfirst]; simp) hnot
    · rw [if_neg hfirst, if_neg (Ne.symm hc)]
      constructor
      · exact fun hnot => hfails (fun hmem => hnot (mem_cons_of_mem c hmem))
      · intro scheme rest hsplit hnot
        cases scheme with
        | nil => exact absurd (List.cons.inj hsplit).1 hfirst
        | cons d scheme =>
          obtain ⟨-, hrest⟩ := List.cons.inj hsplit
          rw [hfinds scheme rest hrest (fun hmem => hnot (mem_cons_of_mem d hmem)), length_cons]
          congr 3
          omega

theorem skip_none {d : α} {rest : List α} (hd : m.nul ≠ d) (hne : ∀ t, rest ≠ d :: t) :
    skip d (rest ++ [m.nul]) = some none := by
  cases rest with
  | nil => exact if_neg hd
  | cons c t => exact if_neg fun hc => hne t (by rw [hc])

theorem skip_some (d : α) (rest : List α) : skip d (d :: rest) = some (some rest) := if_pos rfl

theorem hostLoop_found (noauth : Bool) (ptr : ℕ) (xuri : Uri) (huser : xuri.user = .null)
    (hpass : xuri.pass = .null) (hport : xuri.port = .null) (hnul : m.nul ∉ body) :
    Found m noauth body ptr xuri (hostLoop m noauth (body ++ [m.nul]) ptr none ptr xuri) := by
  cases noauth with
  | true => exact hostLoop_noauth huser hpass hport hnul
  | false =>
    exact hostLoop_auth (h := []) (o := none) ptr huser hpass hport free_nil hnul

theorem touri_eq (hnul : m.nul ∉ text) (uri : Uri) (flags : Flags) :
    (¬FirstColon m text → touri m (text ++ [m.nul]) uri flags = some (-1, uri)) ∧
      (FirstColon m text → ∃ p : Parts α, p.joined m = text ∧
        p.Delimited m flags ∧ touri m (text ++ [m.nul]) uri flags = some (0, p.located m)) := by
  obtain ⟨hfails, hfinds⟩ := schemeLoop_eq hnul 0
  obtain ⟨hcolon, hslash, -⟩ := m.distinct
  constructor
  · intro hnot
    by_cases hmem : m.colon ∈ text
    · obtain ⟨scheme, rest, htext, hscheme⟩ := eq_append_cons_of_mem hmem
      have hrun := hfinds scheme rest htext hscheme
      by_cases hfirst : ∃ t, rest = m.slash :: t
      · obtain ⟨t, rfl⟩ := hfirst
        have hsecond : ∀ u, t ≠ m.slash :: u := by
          rintro u rfl
          exact hnot ⟨scheme, u, htext, hscheme⟩
        simp only [touri, hrun, bind_eq_bind, bind_some, tail_cons,
          cons_append, skip_some, skip_none hslash hsecond]
      · have hnone := skip_none hslash (fun t ht => hfirst ⟨t, ht⟩)
        simp only [touri, hrun, bind_eq_bind, bind_some, tail_cons, hnone]
    · simp only [touri, hfails hmem, bind_eq_bind, bind_some]
  · rintro ⟨scheme, rest, htext, hscheme⟩
    have hrun := hfinds scheme _ htext hscheme
    have hrest : m.nul ∉ rest := fun hmem => hnul (by rw [htext]; simp [hmem])
    obtain ⟨auth, host, port, tail, hsplit, hended, hauthority, hfound⟩ :=
      hostLoop_found flags.noauth (0 + scheme.length + 3)
        { null with scheme := ⟨some 0, 0 + scheme.length⟩ } rfl rfl rfl hrest
    have htail : m.nul ∉ tail := fun hmem => hrest (by rw [hsplit]; simp [hmem])
    obtain ⟨path, query, frag, rfl, hparts, hend⟩ := setTail_eq flags
      { null with
        scheme := ⟨some 0, 0 + scheme.length⟩
        user := userSlice (0 + scheme.length + 3) auth
        pass := passSlice (0 + scheme.length + 3) auth
        host := ⟨some (0 + scheme.length + 3 + (authText m auth).length), host.length⟩
        port := optSlice (0 + scheme.length + 3 + (authText m auth).length + host.length + 1) port }
      (0 + scheme.length + 3 + (authText m auth ++ (host ++ optText m.colon port)).length)
      rfl rfl rfl hended htail
    refine ⟨⟨scheme, auth, host, port, path, query, frag⟩, ?_, ⟨hscheme, hauthority, hparts⟩, ?_⟩
    · rw [htext, hsplit]
      simp [Parts.joined]
    · simp only [touri, hrun, bind_eq_bind, bind_some, tail_cons,
        cons_append, skip_some, hfound, hend]
      simp only [Parts.located, Parts.fragAt, Parts.queryAt, Parts.pathAt, Parts.hostAt,
        length_append, Nat.zero_add, Nat.add_assoc]

end Qse.Uri
