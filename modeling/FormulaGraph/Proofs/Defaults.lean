import FormulaGraph.Proofs.Graph.HostedBoundary
import FormulaGraph.Proofs.Graph.Places
import FormulaGraph.Proofs.Numeric.Integers

/-!
Defaults of boundary sockets. A value of the type of a socket is stored as it
is and shown inside the tree, and setting it again changes nothing. Integers
are the exception: they pass through single precision, so one of more than 24
significant bits is stored rounded.
-/

namespace FormulaGraph

open Numeric

/-- The values that a socket of their own type stores as they are. -/
def Value.Exact : Value → Prop
  | int i => i = Int32.maxValue ∨ FitsSingle i.toInt
  | _ => True

/-- A value is converted to its own type unchanged, if it is exact. -/
theorem Value.convert_type (v : Value) :
    ∃ stored, v.convert v.type = some stored ∧ (stored = v ↔ v.Exact) := by
  cases v with
  | bool b => exact ⟨bool b, by cases b <;> rfl, iff_of_true rfl trivial⟩
  | int i =>
    refine ⟨int (Binary.ofInt i.toInt : Single).toInt32, rfl, ?_⟩
    rw [Value.int.injEq, toInt32_ofInt_iff]
    rfl
  | float x => exact ⟨float x, rfl, iff_of_true rfl trivial⟩
  | vector w => exact ⟨vector w, rfl, iff_of_true rfl trivial⟩
  | color rgb alpha => exact ⟨color rgb alpha, rfl, iff_of_true rfl trivial⟩

namespace Tree

variable {t t' : Tree} {x : SocketId} {s : Socket}

def shown? (t : Tree) : Side → Option (List Socket)
  | .input => (t.node? .groupInput).map (·.outputs)
  | .output => (t.node? .groupOutput).map (·.inputs)

/-- The group nodes show the boundary. -/
def ShowsBoundary (t : Tree) : Prop := ∀ side, t.shown? side = some (t.shownInside side)

theorem Hosted.showsBoundary (h : t.Hosted) : t.ShowsBoundary := by
  intro side
  obtain ⟨n, hn, hout, -⟩ := h.grouped.input
  obtain ⟨m, hm, hin, -⟩ := h.grouped.output
  cases side with
  | input => rw [shown?, hn, ← hout, Option.map_some]
  | output => rw [shown?, hm, ← hin, Option.map_some]

theorem showsBoundary_syncGroups (h : ∀ side, (t.shown? side).isSome) :
    t.syncGroups.ShowsBoundary := by
  intro side
  have hside := h side
  cases side with
  | input =>
    rw [shown?, Option.isSome_map] at hside
    obtain ⟨n, hn⟩ := Option.isSome_iff_exists.mp hside
    rw [shown?, node?_syncGroups, hn, Option.map_some, Option.map_some, mirrored,
      if_pos (id_of_node? hn)]
    rfl
  | output =>
    rw [shown?, Option.isSome_map] at hside
    obtain ⟨n, hn⟩ := Option.isSome_iff_exists.mp hside
    have hne : n.id ≠ .groupInput := by
      rw [id_of_node? hn]
      exact groupOutput_ne_groupInput
    rw [shown?, node?_syncGroups, hn, Option.map_some, Option.map_some, mirrored, if_neg hne,
      if_pos (id_of_node? hn)]
    rfl

theorem ShowsBoundary.setSocketDefault (h : t.ShowsBoundary) (x : SocketId) (value : Value) :
    (Tree.setSocketDefault x value t).2.ShowsBoundary := by
  cases hs : t.boundarySocket? x with
  | none => rwa [setSocketDefault_of_missing hs]
  | some s =>
    rw [setSocketDefault_run hs]
    split
    · exact h
    · refine showsBoundary_syncGroups fun side => ?_
      have hside : _ = some _ := h side
      cases side <;> exact Option.isSome_of_eq_some hside

def shownSocket? (t : Tree) (side : Side) (x : SocketId) : Option Socket :=
  (t.shown? side).bind (·.find? (·.id == x))

theorem ShowsBoundary.shownSocket? (h : t.ShowsBoundary) (hs : t.boundarySocket? x = some s) :
    t.shownSocket? s.side x = some { s with
      side := s.side.opposite
      multiConnect := s.side.opposite.multiConnect } := by
  have hfirst : (t.socketsOn s.side).find? (·.id == x) = some s := by
    obtain ⟨hid, before, after, hboundary, hbefore⟩ := List.find?_eq_some_iff_append.mp hs
    refine List.find?_eq_some_iff_append.mpr ⟨hid, before.filter (·.side == s.side),
      after.filter (·.side == s.side), ?_, fun r hr => hbefore r (List.mem_filter.mp hr).1⟩
    rw [socketsOn, hboundary, List.filter_append, List.filter_cons_of_pos (by simp)]
  unfold Tree.shownSocket?
  rw [h s.side, Option.bind_some, shownInside, List.find?_map]
  exact congrArg (Option.map _) hfirst

/-- Setting the default of a boundary socket to a value of its own type stores a
value on the socket and on the socket that shows it inside, and setting it again
changes nothing. What is stored is the value itself, bit for bit, except for an
integer that single precision rounds. -/
theorem setSocketDefault_faithful {v : Value} (ht : t.ShowsBoundary)
    (hs : t.boundarySocket? x = some s)
    (hv : v.type = s.type) : ∃ changed t' stored,
      setSocketDefault x v t = (.ok changed, t') ∧
      t'.boundarySocket? x = some { s with default := some stored } ∧
      t'.shownSocket? s.side x = some { s with
        side := s.side.opposite
        default := some stored
        multiConnect := s.side.opposite.multiConnect } ∧
      setSocketDefault x v t' = (.ok false, t') ∧ (stored = v ↔ v.Exact) := by
  obtain ⟨changed, t', hrun, -, -, hsocket, -⟩ := setSocketDefault_spec hs v
  obtain ⟨stored, hstored, hexact⟩ := v.convert_type
  rw [hv] at hstored
  rw [redefault, hstored] at hsocket
  have hshown : t'.ShowsBoundary := by
    have := ht.setSocketDefault x v
    rwa [hrun] at this
  refine ⟨changed, t', stored, hrun, hsocket, hshown.shownSocket? hsocket, ?_, hexact⟩
  rw [setSocketDefault_run hsocket, if_pos hstored.symm]

def withCounter : Tree := (addSocket "n" .input .int (empty .geometry)).2

/-- The largest integer is stored although it has 31 significant bits. -/
theorem setSocketDefault_faithful_largest : ∃ changed t',
    setSocketDefault ⟨2⟩ (.int Int32.maxValue) withCounter = (.ok changed, t') ∧
      t'.shownSocket? .input ⟨2⟩ =
        some ⟨⟨2⟩, "n", .output, .int, some (.int Int32.maxValue), true⟩ ∧
      setSocketDefault ⟨2⟩ (.int Int32.maxValue) t' = (.ok false, t') := by
  have hsocket : withCounter.boundarySocket? ⟨2⟩ = some ⟨⟨2⟩, "n", .input, .int, none, false⟩ := by
    decide +kernel
  obtain ⟨changed, t', stored, hrun, -, hshown, hagain, hexact⟩ :=
    setSocketDefault_faithful (hosted_empty .geometry).addSocket.showsBoundary hsocket
      (v := .int Int32.maxValue) rfl
  rw [hexact.mpr (.inl rfl)] at hshown
  exact ⟨changed, t', hrun, hshown, hagain⟩

/-- An integer of 25 significant bits is stored rounded. -/
theorem setSocketDefault_rounds :
    (Value.int 16777217).type = .int ∧
      ((setSocketDefault ⟨2⟩ (.int 16777217) withCounter).2.boundarySocket? ⟨2⟩).map (·.default) =
        some (some (.int 16777216)) := by
  decide +kernel

end Tree

end FormulaGraph
