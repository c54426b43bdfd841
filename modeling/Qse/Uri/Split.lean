import Qse.Uri.Model

/-!
# The components of a URI

The slices that the code returns lie one behind the other in the string, and with their delimiters
they are the string.
-/

namespace Qse.Uri

variable {α : Type} {m : Marks α} {text : List α} {o : Option (List α)} {lo hi at_ : ℕ}
  {l : List Slice}

def Slice.read (text : List α) (s : Slice) : Option (List α) :=
  s.ptr.map fun p => (text.drop p).take s.len

def Slice.Apart (s t : Slice) : Prop :=
  ∀ p q, s.ptr = some p → t.ptr = some q → p + s.len ≤ q ∨ q + t.len ≤ p

def slices (uri : Uri) : List Slice :=
  [uri.scheme, uri.user, uri.pass, uri.host, uri.port, uri.path, uri.query, uri.frag]

def render (m : Marks α) (text : List α) (uri : Uri) : List α :=
  (uri.scheme.read text).getD [] ++ ([m.colon, m.slash, m.slash] ++
    (authText m ((uri.user.read text).map fun user => (user, uri.pass.read text)) ++
      ((uri.host.read text).getD [] ++ (optText m.colon (uri.port.read text) ++
        ((uri.path.read text).getD [] ++ (optText m.question (uri.query.read text) ++
          optText m.hash (uri.frag.read text)))))))

@[grind =] def InOrder (hi : ℕ) : ℕ → List Slice → Prop
  | lo, [] => lo ≤ hi
  | lo, s :: l =>
    match s.ptr with
    | none => InOrder hi lo l
    | some p => lo ≤ p ∧ InOrder hi (p + s.len) l

theorem InOrder.mono {lo' : ℕ} (hle : lo ≤ lo') (h : InOrder hi lo' l) : InOrder hi lo l := by
  induction l generalizing lo lo' with
  | nil => exact Nat.le_trans hle h
  | cons s l ih =>
    rw [InOrder] at h ⊢
    cases hptr : s.ptr with
    | none =>
      rw [hptr] at h
      exact ih hle h
    | some p =>
      rw [hptr] at h
      exact ⟨Nat.le_trans hle h.1, h.2⟩

theorem InOrder.le (h : InOrder hi lo l) : lo ≤ hi := by
  induction l generalizing lo with
  | nil => exact h
  | cons s l ih =>
    rw [InOrder] at h
    cases hptr : s.ptr with
    | none =>
      rw [hptr] at h
      exact ih h
    | some p =>
      rw [hptr] at h
      have hrest := ih h.2
      omega

theorem InOrder.mem {s : Slice} (h : InOrder hi lo l) (hmem : s ∈ l) {p : ℕ}
    (hptr : s.ptr = some p) : lo ≤ p ∧ p + s.len ≤ hi := by
  induction l generalizing lo with
  | nil => cases hmem
  | cons t l ih =>
    rw [InOrder] at h
    rcases List.mem_cons.mp hmem with rfl | hmem
    · rw [hptr] at h
      exact ⟨h.1, h.2.le⟩
    cases hptr' : t.ptr with
    | none =>
      rw [hptr'] at h
      exact ih h hmem
    | some q =>
      rw [hptr'] at h
      have hrest := ih h.2 hmem
      omega

theorem InOrder.pairwise (h : InOrder hi lo l) : l.Pairwise Slice.Apart := by
  induction l generalizing lo with
  | nil => exact List.Pairwise.nil
  | cons s l ih =>
    rw [InOrder] at h
    cases hptr : s.ptr with
    | none =>
      rw [hptr] at h
      refine List.Pairwise.cons ?_ (ih h)
      intro t _ p q hp
      rw [hptr] at hp
      cases hp
    | some p =>
      rw [hptr] at h
      refine List.Pairwise.cons ?_ (ih h.2)
      intro t hmem p' q hp hq
      rw [hptr] at hp
      cases hp
      exact .inl (h.2.mem hmem hq).1

theorem InOrder.optSlice {d : α} (hle : lo ≤ at_) (h : InOrder hi (at_ + (optText d o).length) l) :
    InOrder hi lo (optSlice (at_ + 1) o :: l) := by
  cases o with
  | none => exact h.mono hle
  | some as =>
    have hnext : at_ + 1 + as.length = at_ + (optText d (some as)).length := by
      rw [optText, List.length_cons]
      omega
    rw [← hnext] at h
    exact ⟨Nat.le_succ_of_le hle, h⟩

theorem InOrder.optional (hle : lo ≤ at_) (h : InOrder hi (at_ + (o.getD []).length) l) :
    InOrder hi lo (Uri.optSlice at_ o :: l) := by
  cases o with
  | none => exact h.mono hle
  | some as => exact ⟨hle, h⟩

theorem InOrder.auth {auth : Option (List α × Option (List α))}
    (h : InOrder hi (lo + (authText m auth).length) l) :
    InOrder hi lo (userSlice lo auth :: passSlice lo auth :: l) := by
  cases auth with
  | none => exact h
  | some p =>
    obtain ⟨u, w⟩ := p
    refine ⟨Nat.le_refl lo, InOrder.optSlice (d := m.colon) (Nat.le_refl _) (h.mono ?_)⟩
    rw [authText, List.length_append, List.length_append]
    omega

structure Parts (α : Type) where
  scheme : List α
  auth : Option (List α × Option (List α))
  host : List α
  port : Option (List α)
  path : Option (List α)
  query : Option (List α)
  frag : Option (List α)

variable {p : Parts α}

def Parts.joined (m : Marks α) (p : Parts α) : List α :=
  p.scheme ++ ([m.colon, m.slash, m.slash] ++ (authText m p.auth ++
    (p.host ++ (optText m.colon p.port ++ (p.path.getD [] ++
      (optText m.question p.query ++ optText m.hash p.frag))))))

def Parts.hostAt (m : Marks α) (p : Parts α) : ℕ :=
  p.scheme.length + 3 + (authText m p.auth).length

def Parts.pathAt (m : Marks α) (p : Parts α) : ℕ :=
  p.hostAt m + p.host.length + (optText m.colon p.port).length

def Parts.queryAt (m : Marks α) (p : Parts α) : ℕ := p.pathAt m + (p.path.getD []).length

def Parts.fragAt (m : Marks α) (p : Parts α) : ℕ :=
  p.queryAt m + (optText m.question p.query).length

def Parts.located (m : Marks α) (p : Parts α) : Uri where
  scheme := ⟨some 0, p.scheme.length⟩
  user := userSlice (p.scheme.length + 3) p.auth
  pass := passSlice (p.scheme.length + 3) p.auth
  host := ⟨some (p.hostAt m), p.host.length⟩
  port := optSlice (p.hostAt m + p.host.length + 1) p.port
  path := optSlice (p.pathAt m) p.path
  query := optSlice (p.queryAt m + 1) p.query
  frag := optSlice (p.fragAt m + 1) p.frag

/-- The path ends at a `?` or `#` and the query at a `#`, if the flags do not take these for
characters. -/
structure Tail (m : Marks α) (flags : Flags) (path query frag : Option (List α)) : Prop where
  begins : ∀ p, path = some p → (∃ t, p = m.slash :: t) ∧
    (flags.noquery = false → m.question ∉ p) ∧ (flags.nofrag = false → m.hash ∉ p)
  without : path = none → query = none ∧ frag = none
  asked : ∀ q, query = some q → flags.noquery = false ∧ (flags.nofrag = false → m.hash ∉ q)
  ends : frag ≠ none → flags.nofrag = false

/-- Every component ends where its delimiter is first looked for and met. -/
structure Parts.Delimited (m : Marks α) (flags : Flags) (p : Parts α) : Prop where
  scheme : m.colon ∉ p.scheme
  authority : Authority m flags.noauth p.auth p.host p.port
  tail : Tail m flags p.path p.query p.frag

/-- The components are slices of the text apart from each other, and the text is what they are
with their delimiters, which stand where the flags let them. -/
structure Splits (m : Marks α) (flags : Flags) (text : List α) (uri : Uri) : Prop where
  inside : ∀ s ∈ uri.slices, ∀ p, s.ptr = some p → p + s.len ≤ text.length
  apart : uri.slices.Pairwise Slice.Apart
  render_eq : render m text uri = text
  scheme : uri.scheme.ptr ≠ none
  host : uri.host.ptr ≠ none
  pass : uri.pass.ptr ≠ none → uri.user.ptr ≠ none
  delimited : ∃ p : Parts α, p.joined m = text ∧ p.located m = uri ∧ p.Delimited m flags

theorem Parts.length_joined (m : Marks α) (p : Parts α) :
    (p.joined m).length = p.fragAt m + (optText m.hash p.frag).length := by
  simp only [Parts.joined, Parts.fragAt, Parts.queryAt, Parts.pathAt, Parts.hostAt,
    List.length_append, List.length_cons, List.length_nil]
  omega

theorem Parts.inOrder (m : Marks α) (p : Parts α) :
    InOrder (p.joined m).length 0 (p.located m).slices := by
  refine ⟨Nat.le_refl 0, InOrder.mono ?_ (InOrder.auth (m := m) ⟨Nat.le_refl _, ?_⟩)⟩
  · change 0 + p.scheme.length ≤ p.scheme.length + 3
    omega
  · refine InOrder.optSlice (d := m.colon) (Nat.le_refl _) ?_
    refine InOrder.optional (Nat.le_refl _) ?_
    refine InOrder.optSlice (d := m.question) (Nat.le_refl _) ?_
    refine InOrder.optSlice (d := m.hash) (Nat.le_refl _) ?_
    exact Nat.le_of_eq (p.length_joined m).symm

theorem read_eq (pre : List α) {as : List α} (post : List α) (htext : text = pre ++ (as ++ post))
    (hat : at_ = pre.length) : (⟨some at_, as.length⟩ : Slice).read text = some as := by
  rw [htext, hat]
  simp [Slice.read]

theorem read_optSlice (pre post : List α)
    (htext : ∀ as, o = some as → text = pre ++ (as ++ post)) (hat : at_ = pre.length) :
    (optSlice at_ o).read text = o := by
  cases o with
  | none => rfl
  | some as => exact read_eq pre post (htext as rfl) hat

theorem Parts.read_auth (m : Marks α) (p : Parts α) :
    ((p.located m).user.read (p.joined m)).map
      (fun user => (user, (p.located m).pass.read (p.joined m))) = p.auth := by
  set front := p.scheme ++ [m.colon, m.slash, m.slash] with hfront
  set behind := p.host ++ (optText m.colon p.port ++ (p.path.getD [] ++
    (optText m.question p.query ++ optText m.hash p.frag))) with hbehind
  have hstart : p.scheme.length + 3 = front.length := by simp [hfront]
  have hjoined : p.joined m = front ++ (authText m p.auth ++ behind) := by
    simp [joined, hfront, hbehind]
  rw [hjoined]
  change ((userSlice (p.scheme.length + 3) p.auth).read _).map
    (fun user => (user, (passSlice (p.scheme.length + 3) p.auth).read _)) = _
  cases p.auth with
  | none => rfl
  | some a =>
    obtain ⟨u, w⟩ := a
    have huser : (userSlice (p.scheme.length + 3) (some (u, w))).read
        (front ++ (authText m (some (u, w)) ++ behind)) = some u :=
      read_eq front (optText m.colon w ++ ([m.at_] ++ behind))
        (by simp [authText]) hstart
    have hpass : (passSlice (p.scheme.length + 3) (some (u, w))).read
        (front ++ (authText m (some (u, w)) ++ behind)) = w := by
      refine read_optSlice (front ++ (u ++ [m.colon])) ([m.at_] ++ behind) ?_ ?_
      · rintro as rfl
        simp [authText, optText]
      · simp [hfront]
        omega
    rw [huser, hpass]
    rfl

theorem Parts.render_eq (m : Marks α) (p : Parts α) :
    render m (p.joined m) (p.located m) = p.joined m := by
  have hscheme : (p.located m).scheme.read (p.joined m) = some p.scheme :=
    read_eq [] _ rfl rfl
  have hhost : (p.located m).host.read (p.joined m) = some p.host := by
    refine read_eq (p.scheme ++ ([m.colon, m.slash, m.slash] ++ authText m p.auth))
      (optText m.colon p.port ++ (p.path.getD [] ++
        (optText m.question p.query ++ optText m.hash p.frag))) ?_ ?_
    · simp [joined]
    · simp [hostAt]
      omega
  have hport : (p.located m).port.read (p.joined m) = p.port := by
    refine read_optSlice
      (p.scheme ++ ([m.colon, m.slash, m.slash] ++ (authText m p.auth ++ (p.host ++ [m.colon]))))
      (p.path.getD [] ++ (optText m.question p.query ++ optText m.hash p.frag)) ?_ ?_
    · intro as has
      simp [joined, has, optText]
    · simp [hostAt]
      omega
  have hpath : (p.located m).path.read (p.joined m) = p.path := by
    refine read_optSlice
      (p.scheme ++ ([m.colon, m.slash, m.slash] ++
        (authText m p.auth ++ (p.host ++ optText m.colon p.port))))
      (optText m.question p.query ++ optText m.hash p.frag) ?_ ?_
    · intro as has
      simp [joined, has]
    · simp [pathAt, hostAt]
      omega
  have hquery : (p.located m).query.read (p.joined m) = p.query := by
    refine read_optSlice
      (p.scheme ++ ([m.colon, m.slash, m.slash] ++
        (authText m p.auth ++ (p.host ++ (optText m.colon p.port ++
          (p.path.getD [] ++ [m.question]))))))
      (optText m.hash p.frag) ?_ ?_
    · intro as has
      simp [joined, has, optText]
    · simp [queryAt, pathAt, hostAt]
      omega
  have hfrag : (p.located m).frag.read (p.joined m) = p.frag := by
    refine read_optSlice
      (p.scheme ++ ([m.colon, m.slash, m.slash] ++
        (authText m p.auth ++ (p.host ++ (optText m.colon p.port ++
          (p.path.getD [] ++ (optText m.question p.query ++ [m.hash])))))))
      [] ?_ ?_
    · intro as has
      simp [joined, has, optText]
    · simp [fragAt, queryAt, pathAt, hostAt]
      omega
  rw [render, p.read_auth, hscheme, hhost, hport, hpath, hquery, hfrag]
  rfl

theorem Parts.splits {flags : Flags} (hp : p.Delimited m flags) :
    Splits m flags (p.joined m) (p.located m) where
  inside _ hmem _ hptr := ((p.inOrder m).mem hmem hptr).2
  apart := (p.inOrder m).pairwise
  render_eq := p.render_eq m
  scheme := Option.some_ne_none _
  host := Option.some_ne_none _
  pass := by
    change (passSlice _ p.auth).ptr ≠ none → (userSlice _ p.auth).ptr ≠ none
    cases p.auth with
    | none => exact id
    | some a => exact fun _ => Option.some_ne_none _
  delimited := ⟨p, rfl, rfl, hp⟩

end Qse.Uri
