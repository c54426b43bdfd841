import Qse.Rbt.Insert
import Qse.Support.TreeRemoval
import Mathlib.Data.List.Nodup

/-!
# Deleting a pair

`delete_pair` takes out of its place the pair itself or its successor, which then fills the place of
the pair.
-/

open List

namespace Qse.Rbt

open ColorTree StateProgram

variable {κ : Type}

theorem count_plug (fs : List (Frame (Entry κ))) (s : RbTree (Entry κ)) :
    (plug fs s).count = s.count + (itemsBefore fs).length + (itemsAfter fs).length := by
  rw [RbTree.count, RbTree.count, items_plug]
  simp only [length_append]
  omega

theorem length_le_count_plug (fs : List (Frame (Entry κ))) (s : RbTree (Entry κ)) :
    fs.length + s.count ≤ (plug fs s).count := by
  rw [count_plug]
  induction fs with
  | nil => simp [itemsBefore, itemsAfter]
  | cons f fs ih =>
    obtain ⟨side, c, e, sib⟩ := f
    cases side <;>
      simp only [itemsBefore, itemsAfter, Frame.before, Frame.after, length_append,
        length_cons, length_nil] <;> omega

variable {t : Rbt κ} {fs : List (Frame (Entry κ))} {fuel : ℕ} {c : Color} {e : Entry κ}
  {l r T : RbTree (Entry κ)}

theorem Shape.leftmost_returns {s : RbTree (Entry κ)} (h : Shape t (plug fs s)) (hs : s ≠ .nil)
    (hfuel : s.count ≤ fuel) :
    Returns (leftmost fuel (treeRef s)) t fun y t' =>
      y = treeRef (ColorTree.leftmost fs s).2 ∧ t' = t := by
  induction fs, s using ColorTree.leftmost.induct generalizing fuel with
  | case1 fs => exact absurd rfl hs
  | case2 fs c e r =>
    obtain ⟨fuel, rfl⟩ : ∃ k, fuel = k + 1 := ⟨fuel - 1, by rw [count_node] at hfuel; omega⟩
    rw [leftmost, returns_bind, returns_load]
    refine ⟨_, h.node_eq, ?_⟩
    rw [if_pos treeRef_nil]
    exact returns_pure.mpr ⟨rfl, rfl⟩
  | case3 fs c e r c' e' l' r' ih =>
    obtain ⟨fuel, rfl⟩ : ∃ k, fuel = k + 1 := ⟨fuel - 1, by rw [count_node] at hfuel; omega⟩
    rw [leftmost, returns_bind, returns_load]
    refine ⟨_, h.node_eq, ?_⟩
    rw [if_neg (by simp)]
    exact ih h (by simp) (by rw [count_node] at hfuel; omega)

theorem Shape.spliced_returns (h : Shape t (plug fs (.node c e l r)))
    (hsize : (plug fs (.node c e l r)).count ≤ t.size) :
    Returns (spliced (.pair e.addr)) t fun y t' =>
      y = treeRef (takenOut fs (.node c e l r)).2 ∧ t' = t := by
  rw [spliced, returns_bind, returns_load]
  refine ⟨_, h.node_eq, ?_⟩
  rw [returns_bind, returns_get]
  refine returns_ite (fun hgap => ?_) fun hgap => ?_
  · have hgap' : (RbTree.node c e l r).HasGap := by
      rw [RbTree.HasGap]
      simpa [treeRef_eq_xnil] using hgap
    rw [takenOut_gap fs hgap']
    exact returns_pure.mpr ⟨rfl, rfl⟩
  · obtain ⟨hl, hr⟩ : l ≠ .nil ∧ r ≠ .nil := by
      simpa [treeRef_eq_xnil] using hgap
    have hcount := length_le_count_plug fs (.node c e l r)
    rw [count_node] at hcount
    rw [takenOut_full fs hl hr]
    have hright : Shape t (plug (⟨.right, c, e, l⟩ :: fs) r) := h
    exact hright.leftmost_returns hr (by omega)

theorem Shape.unlink_returns {x : RbTree (Entry κ)} (h : Shape t (plug fs (.node c e l r)))
    (hx : x = (RbTree.node c e l r).onlyChild) (hgap : (RbTree.node c e l r).HasGap) :
    Returns (do
        setParentOf (treeRef x) (ctxRef fs)
        relink (ctxRef fs) (.pair e.addr) (treeRef x) : RbtM κ PUnit) t fun _ t' =>
      Shape t' (plug fs x) ∧ e.addr ∉ addrs (plug fs x) ∧
        t'.mem (.pair e.addr) = t.mem (.pair e.addr) ∧ t'.size = t.size ∧ t'.style = t.style := by
  obtain ⟨hctx, -, hl, hr⟩ := stored_plug.mp h.stored
  have haddrs : addrs x = addrs l ++ addrs r := by
    rw [hx, addrs, hgap.items, map_append, addrs, addrs]
  have hnd := nodup_around.mp h.nodup
  rw [← haddrs] at hnd
  have hstored : Stored t.mem (.pair e.addr) x := by
    rw [hx]
    cases l with
    | nil => exact hr
    | node _ _ _ _ => exact hl
  simp only [nodup_cons, nodup_append, mem_append, not_or] at hnd
  obtain ⟨⟨hex, hectx⟩, hndx, hndctx, hxctx⟩ := hnd
  have hxe : treeRef x ≠ .pair e.addr := treeRef_ne_of_not_mem hex
  have hxfs : fs ≠ [] → treeRef x ≠ ctxRef fs :=
    ne_ctxRef fun a ha => treeRef_ne_of_not_mem fun hax => hxctx a hax a ha rfl
  rw [returns_bind]
  refine (setParentOf_returns hstored _).mono fun _ t1 h1 => ?_
  have hctx1 : StoredCtx t1.mem fs (.pair e.addr) := hctx.congr fun a ha =>
    h1.kept _ fun _ => (treeRef_ne_of_not_mem fun hax => hxctx a hax a ha rfl).symm
  refine (relink_returns hctx1 hectx).mono ?_
  rintro - _ rfl
  have hkept : ∀ p, (fs ≠ [] → p ≠ ctxRef fs) → (x ≠ .nil → p ≠ treeRef x) →
      (relinked t1 fs (treeRef x)).mem p = t.mem p := fun p hp hp' =>
    (relinked_mem t1 fs p _ hp).trans (h1.kept p hp')
  refine ⟨⟨?_, stored_plug.mpr ⟨?_, ?_⟩, ?_, ?_, ?_⟩, ?_, ?_, ?_, ?_⟩
  · exact relinked_root (h1.root.trans h.root)
  · refine hctx1.rehole hndctx ?_ ?_
    · exact fun a _ hne => relinked_mem t1 fs _ _ fun _ => hne
    · rintro f gs rfl
      exact relinked_mem_head t1 f gs _
  · refine hstored.reparent hndx ?_ ?_
    · intro a ha hne
      refine hkept _ (fun hfs => ?_) fun _ => hne
      exact ctxRef_ne_of_not_mem fun hactx => hxctx a ha a hactx rfl
    · intro n hn hne
      rw [relinked_mem t1 fs _ _ hxfs, h1.parent n hn hne]
  · rw [(addrs_plug fs x).nodup_iff, nodup_append]
    exact ⟨hndx, hndctx, hxctx⟩
  · rw [hkept _ ctxRef_ne_null fun _ => (treeRef_ne_null x).symm]
    exact h.null
  · rw [hkept _ (fun _ => ctxRef_ne_xnil fs) fun hne hxn => hne (treeRef_eq_xnil.mp hxn.symm)]
    exact h.xnil
  · rw [(addrs_plug fs x).mem_iff, mem_append, not_or]
    exact ⟨hex, hectx⟩
  · exact hkept _ (fun _ => ctxRef_ne_of_not_mem hectx) fun _ => hxe.symm
  · exact (relinked_size _ _ _).trans h1.size
  · exact (relinked_style _ _ _).trans h1.style

theorem Shape.repair_returns {y : RbTree (Entry κ)} (h : Shape t (plug fs y.onlyChild))
    (hfuel : fs.length + 1 < fuel) :
    Returns (onlyIf (y.color = .black ∧ treeRef y.onlyChild ≠ .xnil)
        (adjustForDelete fuel (treeRef y.onlyChild) (ctxRef fs))) t fun _ t' =>
      Reshaped t t' (plug fs y.onlyChild) (spliceOut fs y) := by
  rw [spliceOut]
  cases hx : y.onlyChild with
  | nil =>
    rw [hx] at h
    exact returns_onlyIf (fun hc => absurd rfl hc.2) fun _ => h.reshaped
  | node c e l r =>
    rw [hx] at h
    simp only
    refine returns_onlyIf (fun hc => ?_) fun hc => ?_
    · rw [if_pos hc.1]
      exact h.adjustForDelete_returns (by simp) hfuel
    · rw [if_neg fun hblack => hc ⟨hblack, by simp⟩]
      exact h.reshaped

theorem child_eq (c : Color) (e : Entry κ) (l r : RbTree (Entry κ)) :
    (if treeRef l = .xnil then treeRef r else treeRef l) =
      treeRef (RbTree.node c e l r).onlyChild := by
  cases l <;> rfl

theorem items_nodup (h : (addrs T).Nodup) : T.items.Nodup :=
  List.Nodup.of_map Entry.addr h

theorem mem_addrs_of_items (h : e ∈ T.items) : e.addr ∈ addrs T :=
  mem_map_of_mem h

theorem Shape.dispose_returns {gs : List (Frame (Entry κ))} {c' : Color} {e' : Entry κ}
    {l' r' : RbTree (Entry κ)} (hout : takenOut fs (.node c e l r) = (gs, .node c' e' l' r'))
    (h : Shape t (spliceOut gs (.node c' e' l' r')))
    (hcell : ∃ n, t.mem (.pair e'.addr) = some n ∧ n.data = e'.data)
    (hapart : e'.addr ∉ addrs (spliceOut gs (.node c' e' l' r'))) :
    Returns (do
        onlyIf (Ref.pair e'.addr ≠ .pair e.addr) (substitute (.pair e.addr) (.pair e'.addr))
        freepair (.pair e.addr) : RbtM κ PUnit) t fun _ t' =>
      ∃ T', Shape t' T' ∧ Removed fs c e l r T' ∧ t'.size = t.size ∧ t'.style = t.style := by
  obtain ⟨n, hn, hdata⟩ := hcell
  rw [returns_bind]
  by_cases hgap : (RbTree.node c e l r).HasGap
  · rw [takenOut_gap fs hgap] at hout
    cases hout
    refine returns_onlyIf (fun hne => absurd rfl hne) fun _ => ?_
    refine (h.freepair_returns hn hapart).mono ?_
    exact fun _ t' ⟨hshape, _, hsize, hstyle⟩ => ⟨_, hshape, removed_gap fs hgap, hsize, hstyle⟩
  obtain ⟨hl, hr⟩ : l ≠ .nil ∧ r ≠ .nil := by
    rw [RbTree.HasGap, not_or] at hgap
    exact hgap
  obtain ⟨c₂, e₂, r₂, hleft⟩ := leftmost_node (⟨.right, c, e, l⟩ :: fs) hr
  obtain rfl : l' = .nil := by
    rw [← takenOut_full fs hl hr, hout] at hleft
    cases hleft
    rfl
  have hmem : e ∈ (spliceOut gs (.node c' e' .nil r')).items := by
    rw [(items_spliceOut_full hl hr hout).1]
    simp
  obtain ⟨hs, d, l₁, r₁, hsplice⟩ := exists_plug_of_mem hmem
  have hne : e'.addr ≠ e.addr := by
    intro heq
    rw [heq] at hapart
    exact hapart (mem_addrs_of_items hmem)
  rw [hsplice] at h hapart
  refine returns_onlyIf (fun _ => ?_) fun heq => absurd (by simpa using hne) heq
  have hfill := h.substitute_returns hn hapart
  rw [hdata] at hfill
  refine hfill.mono fun _ t1 h1 => ?_
  have hkept : t1.mem (.pair e.addr) = t.mem (.pair e.addr) := by
    refine h1.kept _ (by simpa using Ne.symm hne) fun a ha heq => ?_
    cases heq
    exact h.hollow.apart ha
  have hout' : e.addr ∉ addrs (plug hs (.node d e' l₁ r₁)) := by
    rw [addrs_around, not_or]
    exact ⟨Ne.symm hne, h.hollow.apart⟩
  refine (h1.shape.freepair_returns (hkept.trans h.node_eq) hout').mono ?_
  rintro - t2 ⟨hshape, -, hsize, hstyle⟩
  exact ⟨_, hshape, removed_full hl hr hout hsplice (items_nodup h.nodup),
    hsize.trans h1.size, hstyle.trans h1.style⟩

theorem removed_count {T' : RbTree (Entry κ)} (h : Removed fs c e l r T') :
    T'.count = (plug fs (.node c e l r)).count - 1 := by
  rw [count_plug, count_node, RbTree.count, h.items, RbTree.count, RbTree.count]
  simp only [length_append]
  omega

theorem Holds.deletePair_returns (h : Holds t (plug fs (.node c e l r))) :
    Returns (deletePair (.pair e.addr)) t fun _ t' =>
      ∃ T', Holds t' T' ∧ Removed fs c e l r T' ∧ t'.style = t.style := by
  have hplug := plug_takenOut fs (.node c e l r)
  have hgap := takenOut_hasGap fs (s := .node c e l r) (by simp)
  rw [deletePair, returns_bind]
  refine (h.shape.spliced_returns (Nat.le_of_eq h.size.symm)).mono ?_
  rintro - t0 ⟨rfl, hsame⟩
  obtain rfl : t = t0 := hsame.symm
  cases hout : takenOut fs (.node c e l r) with
  | mk gs y =>
  rw [hout] at hplug hgap
  cases y with
  | nil => exact absurd hgap id
  | node c' e' l' r' =>
    have hshape : Shape t (plug gs (.node c' e' l' r')) := by
      rw [hplug]
      exact h.shape
    have hlen := length_le_count_plug gs (.node c' e' l' r')
    rw [hplug, ← h.size] at hlen
    simp only [treeRef_node]
    rw [returns_bind, returns_load]
    refine ⟨_, hshape.node_eq, ?_⟩
    rw [returns_bind, returns_get, child_eq c' e']
    have hunlink := hshape.unlink_returns rfl hgap
    rw [returns_bind] at hunlink ⊢
    refine hunlink.mono fun _ t1 h1 => ?_
    rw [returns_bind]
    refine h1.mono ?_
    rintro - t2 ⟨hshape2, hapart2, hcell2, hsize2, hstyle2⟩
    rw [returns_bind]
    refine (Shape.repair_returns (y := .node c' e' l' r') hshape2 (by omega)).mono ?_
    rintro - t3 h3
    have hapart3 : e'.addr ∉ addrs (spliceOut gs (.node c' e' l' r')) := by
      rw [h3.addrs_eq]
      exact hapart2
    have hcell3 : t3.mem (.pair e'.addr) = t.mem (.pair e'.addr) := by
      refine (h3.kept _ fun a ha heq => ?_).trans hcell2
      cases heq
      exact hapart2 ha
    have hdispose := Shape.dispose_returns hout h3.shape
      ⟨_, hcell3.trans hshape.node_eq, rfl⟩ hapart3
    rw [returns_bind] at hdispose ⊢
    refine hdispose.mono fun _ t4 h4 => ?_
    rw [returns_bind]
    refine h4.mono ?_
    rintro - t5 ⟨T', hshape5, hremoved, hsize5, hstyle5⟩
    refine returns_modify.mpr ⟨T', ⟨?_, ?_, hremoved.color h.root⟩, hremoved, ?_⟩
    · exact hshape5.congr rfl fun _ _ => rfl
    · rw [removed_count hremoved, ← h.size, ← hsize2, ← h3.size, ← hsize5]
    · exact ((hstyle5.trans h3.style).trans hstyle2)

theorem Holds.search_returns (h : Holds t T) (key : κ) :
    Returns (search key) t fun p t' =>
      p = foundRef (descend (keyCmp t.style key) [] T).2 ∧ t' = t := by
  have hfuel : T.depth < t.size + 1 := by
    rw [h.size]
    exact Nat.lt_succ_of_le T.depth_le_count
  rw [search, returns_bind, returns_get, h.shape.root]
  exact @Shape.searchFrom_returns κ t [] T h.shape key _ hfuel

/-- What `qse_rbt_delete` returns and leaves. -/
def Deleted (style : PairStyle κ) (key : κ) (T T' : RbTree (Entry κ)) (ok : Bool) : Prop :=
  match descend (keyCmp style key) [] T with
  | (_, .nil) => ok = false ∧ T' = T
  | (fs, .node c e l r) => ok = true ∧ Removed fs c e l r T'

theorem Holds.delete_returns (h : Holds t T) (key : κ) :
    Returns (delete key) t fun ok t' =>
      ∃ T', Holds t' T' ∧ Deleted t.style key T T' ok ∧ t'.style = t.style := by
  have hplug := plug_descend (keyCmp t.style key) [] T
  rw [delete, returns_bind]
  refine (h.search_returns key).mono ?_
  rintro - t1 ⟨rfl, hsame⟩
  obtain rfl : t = t1 := hsame.symm
  simp only [Deleted]
  cases hplace : descend (keyCmp t.style key) [] T with
  | mk fs s =>
  rw [hplace, plug_nil] at hplug
  cases s with
  | nil =>
    rw [foundRef, if_pos rfl]
    exact returns_pure.mpr ⟨T, h, ⟨rfl, rfl⟩, rfl⟩
  | node c e l r =>
    have h' : Holds t (plug fs (.node c e l r)) := hplug ▸ h
    rw [foundRef, if_neg (by simp), returns_bind]
    refine h'.deletePair_returns.mono ?_
    rintro - t2 ⟨T', hT', hremoved, hstyle⟩
    exact returns_pure.mpr ⟨T', hT', ⟨rfl, hremoved⟩, hstyle⟩

theorem Holds.clearFrom_returns (h : Holds t T) (hfuel : T.count < fuel) :
    Returns (clearFrom fuel) t fun _ t' => Holds t' .nil ∧ t'.style = t.style := by
  induction fuel generalizing t T with
  | zero => omega
  | succ fuel ih =>
    rw [clearFrom, returns_bind, returns_get, h.shape.root]
    cases T with
    | nil =>
      rw [if_pos treeRef_nil]
      exact returns_pure.mpr ⟨h, rfl⟩
    | node c e l r =>
      have h' : Holds t (plug [] (.node c e l r)) := h
      rw [if_neg (by simp), returns_bind]
      refine h'.deletePair_returns.mono ?_
      rintro - t1 ⟨T', hT', hremoved, hstyle⟩
      have hcount := removed_count hremoved
      rw [plug_nil] at hcount
      rw [count_node] at hcount hfuel
      refine (ih hT' (by omega)).mono fun _ t2 h2 => ?_
      exact ⟨h2.1, h2.2.trans hstyle⟩

theorem Holds.clear_returns (h : Holds t T) :
    Returns clear t fun _ t' => Holds t' .nil ∧ t'.style = t.style := by
  rw [clear, returns_bind, returns_get, h.size]
  exact h.clearFrom_returns (Nat.lt_succ_self _)

end Qse.Rbt
