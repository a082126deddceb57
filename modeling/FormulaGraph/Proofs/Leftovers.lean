import FormulaGraph.Proofs.Isolation

/-!
What the inputs of the node of a call hold. A call feeds some of them. A node
that is met again under its tag keeps what the others had, and an earlier call
under the tag may have fed those: a tag does not tell numbers from vectors among
the literals.
-/

namespace FormulaGraph

open Run

/-- An input that holds what the catalogue says and that no link leads to. -/
def Tree.Untouched (t : Tree) (s : Socket) (spec : SocketSpec) : Prop :=
  t.feedOf? s.id = none ∧ s.default = spec.default

namespace Tag

/-- An input that a call under a tag feeds, if its literals are of the right kinds. -/
def Feeds (tag : String) (type : NodeType) (slot : Nat) : Prop :=
  ∃ f k args, ∃ b : Blueprint Operand, tag = operation f.name (Pass.markers k args).1 ∧
    b.IsFor f args ∧ b.type = type ∧ slot ∈ b.inputs.map Prod.fst

theorem spares_of_not_feeds {tag : String} {type : NodeType} {slot : Nat}
    (ht : IsCall tag) (h : ¬Feeds tag type slot) : Spares tag type slot :=
  ⟨ht, fun f k args b htag hb htype hslot => h ⟨f, k, args, b, htag, hb, htype, hslot⟩⟩

end Tag

namespace Pass

variable {p q : Pass} {tag : String} {type : NodeType} {settings : List (String × String)}
  {id : NodeId} {n : Node}

/-- The node of a tag is the one that was there, or its inputs are untouched. -/
theorem nodeFor_inputs (hp : p.Viable) (h : nodeFor tag type settings p = (.ok id, q))
    (hn : q.tree.node? id = some n) :
    (∃ m, p.tree.node? id = some m ∧ m.name = n.name ∧ m.type = n.type ∧ m.inputs = n.inputs ∧
      q.tree.links = p.tree.links) ∨
    ∀ (i : Nat) s spec, n.inputs[i]? = some s → n.type.inputs[i]? = some spec →
      q.tree.Untouched s spec := by
  obtain ⟨m, -, hm, -, rfl⟩ | ⟨r, hr, -, rfl, rfl⟩ := nodeFor_cases h
  · change (p.tree.modifyNode id (refresh settings)).node? id = some n at hn
    rw [Tree.node?_modifyNode (by intro n; rfl), hm] at hn
    simp only [if_true, Option.map_some, Option.some.injEq] at hn
    subst hn
    exact .inl ⟨m, hm, rfl, rfl, rfl, rfl⟩
  · have hs : r.tree.Sane := by
      obtain ⟨rfl, -⟩ | ⟨old, -, -, rfl⟩ | ⟨old, m, -, -, -, rfl⟩ := hr
      · exact hp.hosted.sane
      · exact hp.hosted.sane
      · exact hp.hosted.sane.removeNode old
    rw [made, Tree.node?_addNode hs.nodesBelow, if_pos rfl] at hn
    cases hn
    exact .inr fun i s spec hi hspec => Tree.untouched_addedNode hs hi hspec

theorem Viable.draft {α : Type} {s : Sketch α} {a : α} (hp : p.Viable) (hs : s.Valid)
    (h : s.draw p = (.ok a, q)) : ∃ id p₁ p₂ n, s.Draft p id p₁ p₂ n a q :=
  hs.draft (nodeFor_opened hp.hosted.sane hp.hosted.grouped (fun id hi => (hp.found _ id hi).2)
    hs.isTag hs.settings) h

/-- The node that takes a vector apart has no input but the one that it is fed by. -/
theorem separate_rewires (hp : p.Viable) {v : Operand} {x y z : Handle}
    (hnew : p.results.lookup (Tag.operation "sepaxyz" (markers p.literals [v]).1) = none)
    (h : separate v p = (.ok (x, y, z), q)) :
    ∃ n, q.tree.node? x.node = some n ∧ y.node = x.node ∧ z.node = x.node ∧
      n.name = Tag.operation "sepaxyz" (markers p.literals [v]).1 ∧ n.type = .separateXYZ ∧
      q.tree.FedAll x.node [(0, v)] ∧ n.inputs.length = 1 := by
  rw [separate_of_new hnew] at h
  have hsep : Tag.IsSeparation (Tag.operation "sepaxyz" (markers p.literals [v]).1) := ⟨_, rfl⟩
  have hs := Sketch.valid_split (v := v) hsep
  have hp₀ : ({ p with literals := (markers p.literals [v]).2 } : Pass).Viable :=
    hp.move (.note (fun _ => Nat.le_refl _) (literals_le_markers p.literals [v]) :
      Moves [] .any p _)
  obtain ⟨id, p₁, p₂, n, hd⟩ := hp₀.draft hs h
  have hx : x.node = id := hd.tapped.on x (.head _)
  have hy : y.node = id := hd.tapped.on y (.tail _ (.head _))
  have hz : z.node = id := hd.tapped.on z (.tail _ (.tail _ (.head _)))
  obtain ⟨-, -, hfed, hw⟩ := hd.wires (by simp [Blueprint.separate, Blueprint.plan])
  obtain ⟨n₁, hn₁, hname, htype, -⟩ := hd.opened.node
  obtain ⟨m, hm, hrewired⟩ := hw.rewired n₁ hn₁
  cases hd.node.symm.trans hm
  obtain ⟨id', p₁', h₁, -, (hworks : Works [] _ _ _)⟩ := nodeFor_works hp₀ hs.isTag rfl rfl
    hs.settings (Tag.suits_operation (fun _ => rfl) (fun _ => rfl)
      fun hc => absurd hc hsep.not_isCombination)
  cases hd.got.symm.trans h₁
  have hp₁ := hp₀.work hs.isTag (not_mem_keys hnew) hworks
  have hgroup : n₁.id.isGroup = false := by
    rw [Tree.id_of_node? hn₁]
    exact hp₁.hosted.grouped.not_group hn₁ (by rw [hname]; exact hs.isTag)
  have hlength : n₁.inputs.length = 1 := by
    have := congrArg List.length ((hp₁.equipped n₁ (Tree.mem_of_node? hn₁)).inputs hgroup)
    rw [htype, List.length_map] at this
    exact this
  refine ⟨n, by rw [hx]; exact hd.node, hy.trans hx.symm, hz.trans hx.symm, hd.name, hd.type,
    by rw [hx]; exact hfed, ?_⟩
  rw [← hlength]
  simpa using congrArg List.length hrewired.sockets

/-- After a call has built the node of its tag or met it again, the inputs that it
feeds are as the call says. Each other one is as the catalogue has it, unless the
node was there before and another call under the tag can feed this input. Then
it is as it was. A node that takes a vector apart has no other inputs. -/
theorem build_rewires {t : Tree} {shrunk : Bool} {given : List Handle} (ht : t.Staged shrunk given)
    {actions : List Action} (hown : (Desk.resume t given).Owns actions)
    (hruns : Runs ((Desk.resume t given).acts actions).given .any
      ((Desk.resume t given).acts actions).pass p) :
    (∀ {tag k args g q} {f : Function} {b : Blueprint Operand},
      tag = Tag.operation f.name (markers k args).1 → p.results.lookup tag = none →
      b.IsFor f args → build tag b.plan p = (.ok g, q) →
      ∃ n, q.tree.node? g.node = some n ∧ n.name = tag ∧ n.type = b.type ∧
        q.tree.FedAll g.node b.inputs ∧
        ∀ i s spec, n.inputs[i]? = some s → b.type.inputs[i]? = some spec →
          i ∉ b.inputs.map Prod.fst → q.tree.Untouched s spec ∨
            Tag.Feeds tag b.type i ∧ ∃ m, p.tree.node? g.node = some m ∧ m.name = tag ∧
              m.type = b.type ∧ m.inputs[i]? = some s ∧
              q.tree.feedOf? s.id = p.tree.feedOf? s.id) ∧
    ∀ {v x y z q}, p.results.lookup (Tag.operation "sepaxyz" (markers p.literals [v]).1) = none →
      separate v p = (.ok (x, y, z), q) →
      ∃ n, q.tree.node? x.node = some n ∧ y.node = x.node ∧ z.node = x.node ∧
        n.name = Tag.operation "sepaxyz" (markers p.literals [v]).1 ∧ n.type = .separateXYZ ∧
        q.tree.FedAll x.node [(0, v)] ∧ n.inputs.length = 1 := by
  have ha := (ht.acts hown).runs hruns
  have hp := ha.viable
  refine ⟨fun {tag k args g q f b} htag hnew hb h => ?_, separate_rewires hp⟩
  have hcall : Tag.IsCall tag := ⟨f, _, htag⟩
  rw [build_of_new hnew] at h
  obtain ⟨id, p₁, p₂, n, hd⟩ :=
    hp.draft (Sketch.valid_ofPlan hcall ⟨hb.neat.settings, hb.neat.slots⟩) h
  obtain rfl : g.node = id := hd.tapped.on g List.mem_cons_self
  obtain ⟨-, -, hfed, hw⟩ := hd.wires hb.neat.slots
  have hn := hd.node
  have hsane := hd.opened.sane.setActive (some g.node)
  obtain ⟨n₁, hn₁, hname, htype, -⟩ := hd.opened.node
  obtain ⟨n', hn', hrewired⟩ := hw.rewired n₁ hn₁
  cases hn'.symm.trans hn
  -- what the catalogue says of inputs that no call feeds was so before and stays so
  have hclean₁ : (p₁.tree.setActive (some g.node)).Clean :=
    ((nodeFor_effect hp (htag ▸ hb.suits _) hd.got).2.1 ha.clean).of_nodes rfl fun _ hl => hl
  have hclean := hclean₁.wires hw hsane hn₁
    fun i hi hs => hs.free f k args b (hname.trans htag) hb htype.symm hi
  refine ⟨n, hn, hd.name, hd.type, hfed, fun i s spec hi hspec hfree => ?_⟩
  by_cases hfeed : Tag.Feeds tag b.type i
  · rw [hrewired.others i hfree] at hi
    have hsame := hw.fed_other hsane hn₁ hi hfree
    rcases nodeFor_inputs hp hd.got hn₁ with ⟨m, hm, hmname, hmtype, hinputs, hlinks⟩ | hmade
    · refine .inr ⟨hfeed, m, hm, hmname.trans hname, hmtype.trans htype, hinputs ▸ hi, ?_⟩
      exact hsame.trans (congrArg _ hlinks)
    · obtain ⟨hunfed, hdefault⟩ := hmade i s spec hi (htype ▸ hspec)
      exact .inl ⟨hsame.trans hunfed, hdefault⟩
  · refine .inl (hclean n (Tree.mem_of_node? hn) i s spec hi (hd.type ▸ hspec) ?_)
    rw [hd.name, hd.type]
    exact Tag.spares_of_not_feeds hcall hfeed

/-- A mix of two numbers meets the node that an earlier pass has built for a vector
and a number. A vector is taken apart next. -/
theorem build_rewires_mix :
    let a : Handle := ⟨.scalar, 0, ⟨.groupInput, ⟨2⟩⟩, some "a"⟩
    let b : Handle := ⟨.scalar, 1, ⟨.groupInput, ⟨3⟩⟩, some "b"⟩
    let first := (Desk.resume (.empty .geometry) []).acts [.input "a" .scalar none,
      .input "b" .scalar none, .call .mix [.handle a, .literal (.vector ⟨1, 2, 3⟩), .handle b]]
    let p := ((Desk.resume first.pass.tree first.given).acts [.input "a" .scalar none,
      .input "b" .scalar none]).pass
    let plan := Blueprint.mix Operand.isVector (.handle a) (.scalar 1) (.handle b)
    ∃ g q s, build "F|mix(f0,p0,f1)" plan.plan p = (.ok g, q) ∧ q.tree.FedAll g.node plan.inputs ∧
      (q.tree.node? g.node).bind (·.inputs[5]?) = some s ∧ Tag.Feeds "F|mix(f0,p0,f1)" .mix 5 ∧
      q.tree.feedOf? s.id = p.tree.feedOf? s.id ∧
      ∃ x y z q', separate (.literal (.vector ⟨1, 2, 3⟩)) p = (.ok (x, y, z), q') ∧
        q'.tree.FedAll x.node [(0, .literal (.vector ⟨1, 2, 3⟩))] := by
  intro a b first p plan
  let s : Socket := ⟨⟨10⟩, "B_Vector", .input, .vector, some (.vector ⟨0, 0, 0⟩), false⟩
  have hr : (build "F|mix(f0,p0,f1)" plan.plan p).1 =
      .ok ⟨.scalar, 2, ⟨⟨4⟩, ⟨11⟩⟩, none⟩ := by decide +kernel
  have hslot : ((build "F|mix(f0,p0,f1)" plan.plan p).2.tree.node? ⟨4⟩).bind (·.inputs[5]?) =
      some s ∧
      (build "F|mix(f0,p0,f1)" plan.plan p).2.tree.feedOf? s.id ≠ none := by decide +kernel
  have hstaged : first.pass.tree.Staged false first.given :=
    .pass (.empty .geometry) _ (by decide +kernel)
  have hown : (Desk.resume first.pass.tree first.given).Owns [.input "a" .scalar none,
      .input "b" .scalar none] := by decide +kernel
  have htag : "F|mix(f0,p0,f1)" = Tag.operation Function.mix.name
      (markers 0 [.handle a, .scalar 1, .handle b]).1 := by decide +kernel
  have hnew : p.results.lookup "F|mix(f0,p0,f1)" = none := by decide +kernel
  have hsplit : ∃ x y z q', separate (.literal (.vector ⟨1, 2, 3⟩)) p = (.ok (x, y, z), q') ∧
      q'.tree.FedAll x.node [(0, .literal (.vector ⟨1, 2, 3⟩))] := by
    have hr : (separate (.literal (.vector ⟨1, 2, 3⟩)) p).1 =
        .ok (⟨.scalar, 2, ⟨⟨15⟩, ⟨17⟩⟩, none⟩, ⟨.scalar, 3, ⟨⟨15⟩, ⟨18⟩⟩, none⟩,
          ⟨.scalar, 4, ⟨⟨15⟩, ⟨19⟩⟩, none⟩) := by decide +kernel
    have hrun := eq_of_fst hr
    obtain ⟨-, -, -, -, -, -, hfed, -⟩ :=
      (build_rewires hstaged hown .refl).2 (by decide +kernel) hrun
    exact ⟨_, _, _, _, hrun, hfed⟩
  have hrun := eq_of_fst hr
  generalize (build "F|mix(f0,p0,f1)" plan.plan p).2 = q at hrun hslot
  obtain ⟨n, hn, -, -, hfed, hrest⟩ :=
    (build_rewires hstaged hown .refl).1 htag hnew (.inl rfl) hrun
  refine ⟨_, q, s, hrun, hfed, hslot.1, ?_⟩
  have hi : (some n).bind (·.inputs[5]?) = some s := hn ▸ hslot.1
  rcases hrest 5 s _ hi rfl (by decide) with hclean | ⟨hfeeds, -, -, -, -, -, hkept⟩
  · exact absurd hclean.1 hslot.2
  · exact ⟨hfeeds, hkept, hsplit⟩

/-- A vector among the literals of a mix is replaced by a number. The node is met
again, and the input that the second number was for is still linked. -/
theorem mix_keeps_link :
    let a : Handle := ⟨.scalar, 0, ⟨.groupInput, ⟨2⟩⟩, some "a"⟩
    let b : Handle := ⟨.scalar, 1, ⟨.groupInput, ⟨3⟩⟩, some "b"⟩
    let first := (Desk.resume (.empty .geometry) []).acts [.input "a" .scalar none,
      .input "b" .scalar none, .call .mix [.handle a, .literal (.vector ⟨1, 2, 3⟩), .handle b]]
    let p := ((Desk.resume first.pass.tree first.given).acts [.input "a" .scalar none,
      .input "b" .scalar none]).pass
    let q := (call .mix [.handle a, .scalar 1, .handle b] p).2
    (call .mix [.handle a, .scalar 1, .handle b] p).1 =
        .ok (.handle ⟨.scalar, 2, ⟨⟨4⟩, ⟨11⟩⟩, none⟩) ∧
      (q.tree.node? ⟨4⟩).map (fun n => n.inputs.map fun s => (q.tree.sourceOf? s.id, s.default)) =
        some [(some a.socket, some (.float 0.5)), (none, some (.vector ⟨0.5, 0.5, 0.5⟩)),
          (none, some (.float 1)), (some b.socket, some (.float 0)),
          (none, some (.vector ⟨1, 2, 3⟩)), (some b.socket, some (.vector ⟨0, 0, 0⟩))] := by
  decide +kernel

end Pass

end FormulaGraph
