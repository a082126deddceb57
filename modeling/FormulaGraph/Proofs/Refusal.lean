import FormulaGraph.Proofs.HostEdits

/-!
When an edit of a tree is refused, and what a refused edit leaves. A link
between an output and a free input that fit is refused exactly when it would
close a loop. A refused edit leaves the tree as it was, but that the links it
had taken out to make room for another come back at the end.
-/

namespace FormulaGraph

open Relation Run

namespace Tree

variable {t t' : Tree} {a b : SocketRef} {x y : NodeId}

theorem Feeds.addLink (h : t.Feeds x y) : (t.addLink a b).Feeds x y := by
  obtain ⟨l, hl, hends⟩ := h
  exact ⟨l, List.mem_append_left _ hl, hends⟩

theorem Linkable.linkFault?_eq_none_iff (h : t.Linkable a b) :
    t.linkFault? a b = none ↔ t.dependsOn a.node b.node = false := by
  rw [linkFault?_of_linkable h]
  by_cases hself : a.node = b.node
  · have hdep : t.dependsOn b.node b.node = true := dependsOn_iff.mpr .refl
    simp [hself, hdep]
  · cases hdep : t.dependsOn a.node b.node <;> simp [hself]

/-- Three nodes in a row, and an input of the tree that feeds none of them. -/
def inARow : Tree :=
  [.addNode .math {}, .addNode .math {}, .addNode .math {},
    .connect ⟨⟨2⟩, ⟨6⟩⟩ ⟨⟨7⟩, ⟨8⟩⟩, .connect ⟨⟨7⟩, ⟨11⟩⟩ ⟨⟨12⟩, ⟨13⟩⟩,
    .addSocket "x" .input .float].foldl HostEdit.apply (empty .geometry)

end Tree

namespace Edit

variable {ε α : Type}

def Atomic (e : Edit ε α) : Prop := ∀ t fault t', e t = (.error fault, t') → t' = t

theorem atomic_of_get {f : Tree → Edit ε α}
    (h : ∀ t fault t', f t t = (.error fault, t') → t' = t) : (get >>= f : Edit ε α).Atomic := by
  intro t fault t' herr
  rw [bind_of_ok (get_run t)] at herr
  exact h t fault t' herr

theorem eq_of_adjustType_error {t t' : Tree} {type : SocketType} {fault : BoundaryFault}
    {f : SocketType → Edit BoundaryFault α}
    (hf : ∀ wanted fault t', f wanted t = (.error fault, t') → t' = t)
    (h : (liftM (t.adjustType type) >>= f : Edit BoundaryFault α) t = (.error fault, t')) :
    t' = t := by
  cases ha : t.adjustType type with
  | error found =>
    have hrun : (liftM (t.adjustType type) : Edit BoundaryFault SocketType) t =
        (.error found, t) := by
      rw [ha]
      rfl
    rw [bind_of_error hrun] at h
    cases h
    rfl
  | ok wanted =>
    have hrun : (liftM (t.adjustType type) : Edit BoundaryFault SocketType) t =
        (.ok wanted, t) := by
      rw [ha]
      rfl
    rw [bind_of_ok hrun] at h
    exact hf wanted fault t' h

end Edit

namespace Tree

variable {t t' : Tree} {a b : SocketRef}

theorem connect_atomic (a b : SocketRef) : (connect a b).Atomic := by
  intro t fault t' h
  rw [connect_run] at h
  split at h <;> cases h
  rfl

theorem addSocket_atomic (name : String) (side : Side) (type : SocketType) :
    (addSocket name side type).Atomic := by
  refine Edit.atomic_of_get fun t fault t' h => ?_
  split at h
  · cases h
    rfl
  · refine Edit.eq_of_adjustType_error (fun wanted fault t' h => ?_) h
    cases h

theorem removeSocket_atomic (x : SocketId) : (removeSocket x).Atomic := by
  refine Edit.atomic_of_get fun t fault t' h => ?_
  cases hs : t.boundarySocket? x with
  | none =>
    rw [hs] at h
    cases h
    rfl
  | some s =>
    rw [hs] at h
    cases h

theorem retypeSocket_atomic (x : SocketId) (type : SocketType) : (retypeSocket x type).Atomic := by
  refine Edit.atomic_of_get fun t fault t' h => ?_
  refine Edit.eq_of_adjustType_error (fun wanted fault t' h => ?_) h
  cases hs : t.boundarySocket? x with
  | none =>
    rw [hs] at h
    cases h
    rfl
  | some s =>
    rw [hs] at h
    dsimp only at h
    split at h <;> cases h

theorem setSocketDefault_atomic (x : SocketId) (value : Value) :
    (setSocketDefault x value).Atomic := by
  intro t fault t' h
  cases hs : t.boundarySocket? x with
  | none =>
    rw [setSocketDefault_of_missing hs] at h
    cases h
    rfl
  | some s =>
    rw [setSocketDefault_run hs] at h
    split at h <;> cases h

/-- The links that are put back are those that were taken out. -/
theorem reconnect_refused {fault : LinkFault} (h : reconnect a b t = (.error fault, t')) :
    t'.links.Perm t.links ∧ t' = { t with links := t'.links } := by
  rw [reconnect_run] at h
  split at h <;> cases h
  refine ⟨?_, rfl⟩
  have hsplit := List.filter_append_perm (·.target.socket != b.socket) t.links
  simpa [disconnect, bne] using hsplit

theorem reconnect_done (h : reconnect a b t = (.ok (), t')) :
    t' = { t with
      links := t.links.filter (·.target.socket != b.socket) ++ [⟨⟨t.supply⟩, a, b⟩]
      supply := t.supply + 1 } := by
  rw [reconnect_run] at h
  split at h <;> cases h
  rfl

/-- A refused edit of the links or the boundary leaves the tree as it was, up to
the order of the links when one should have been replaced. A link that does
replace what fed an input is the only one that is new, and only the links into
that input are gone. -/
theorem edits_atomic :
    (∀ a b, (connect a b).Atomic) ∧
    (∀ a b t fault t', reconnect a b t = (.error fault, t') →
      t'.links.Perm t.links ∧ t' = { t with links := t'.links }) ∧
    (∀ name side type, (addSocket name side type).Atomic) ∧
    (∀ x, (removeSocket x).Atomic) ∧
    (∀ x type, (retypeSocket x type).Atomic) ∧
    (∀ x value, (setSocketDefault x value).Atomic) ∧
    ∀ a b t t', reconnect a b t = (.ok (), t') → ∃ l : Link,
      l.source = a ∧ l.target = b ∧ (∀ m ∈ t.links, m.id.index < t.supply → m.id ≠ l.id) ∧
      t'.links = t.links.filter (·.target.socket != b.socket) ++ [l] ∧
      t' = { t with links := t'.links, supply := t'.supply } := by
  refine ⟨connect_atomic, fun a b t fault t' => reconnect_refused, addSocket_atomic,
    removeSocket_atomic, retypeSocket_atomic, setSocketDefault_atomic, ?_⟩
  intro a b t t' h
  have hdone := reconnect_done h
  refine ⟨⟨⟨t.supply⟩, a, b⟩, rfl, rfl, ?_, ?_, ?_⟩
  · intro m _ hlt heq
    rw [heq] at hlt
    exact Nat.lt_irrefl _ hlt
  · rw [hdone]
  · rw [hdone]

/-- A link back to the first node is refused, also where it should replace one;
a link past the middle node replaces the one from it. -/
theorem edits_atomic_row :
    (connect ⟨⟨12⟩, ⟨16⟩⟩ ⟨⟨2⟩, ⟨3⟩⟩ inARow).2 = inARow ∧
    (reconnect ⟨⟨12⟩, ⟨16⟩⟩ ⟨⟨7⟩, ⟨8⟩⟩ inARow).2.links.Perm inARow.links ∧
    (addSocket "x" .input .vector inARow).2 = inARow ∧
    (removeSocket ⟨8⟩ inARow).2 = inARow ∧
    (retypeSocket ⟨8⟩ .vector inARow).2 = inARow ∧
    (setSocketDefault ⟨8⟩ (.int 1) inARow).2 = inARow ∧
    ∃ l : Link, l.source = ⟨⟨2⟩, ⟨6⟩⟩ ∧ l.target = ⟨⟨12⟩, ⟨13⟩⟩ ∧
      (reconnect ⟨⟨2⟩, ⟨6⟩⟩ ⟨⟨12⟩, ⟨13⟩⟩ inARow).2.links =
        inARow.links.filter (·.target.socket != ⟨13⟩) ++ [l] := by
  obtain ⟨hconnect, hreconnect, hadd, hremove, hretype, hdefault, hdone⟩ := edits_atomic
  refine ⟨?_, ?_, ?_, ?_, ?_, ?_, ?_⟩
  · exact hconnect _ _ _ .cycle _ (eq_of_fst (by decide +kernel))
  · exact (hreconnect _ _ _ .cycle _ (eq_of_fst (by decide +kernel))).1
  · exact hadd _ _ _ _ (.duplicate .input "x") _ (eq_of_fst (by decide +kernel))
  · exact hremove _ _ (.missing ⟨8⟩) _ (eq_of_fst (by decide +kernel))
  · exact hretype _ _ _ (.missing ⟨8⟩) _ (eq_of_fst (by decide +kernel))
  · exact hdefault _ _ _ (.missing ⟨8⟩) _ (eq_of_fst (by decide +kernel))
  · obtain ⟨l, hsource, htarget, -, hlinks, -⟩ :=
      hdone ⟨⟨2⟩, ⟨6⟩⟩ ⟨⟨12⟩, ⟨13⟩⟩ inARow _ (eq_of_fst (by decide +kernel))
    exact ⟨l, hsource, htarget, hlinks⟩

end Tree

end FormulaGraph
