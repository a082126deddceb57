import FormulaGraph.Proofs.Pass.Builds
import FormulaGraph.Proofs.Pass.Relay
import FormulaGraph.Proofs.Pass.Replay

/-!
Nothing that a pass builds is idle. Whatever it takes up, apart from frames,
leads along links to what it gives: a step hands on its operands, and the steps
of a construction follow one another so that each of them takes what the ones
before it gave.
-/

namespace FormulaGraph.Pass

open Run Numeric Relation

variable {args : List Operand} {h : Handle} {k : Nat} {α β : Type} {roster handles : List Handle}
  {p p' : Pass} {tag : String} {id a : NodeId}

def Drives (p : Pass) (a b : NodeId) : Prop :=
  p.Settled a ∧ p.Settled b ∧ ∃ n x r, p.tree.node? b = some n ∧ x ∈ n.inputIds ∧
    p.tree.sourceOf? x = some r ∧ r.node = a

theorem Grows.drives (hg : Grows p p') {b : NodeId} (h : p.Drives a b) : p'.Drives a b := by
  obtain ⟨ha, hb, n, x, r, hn, hx, hr, rfl⟩ := h
  obtain ⟨n', hn', ho⟩ := hg.keeps.node? hb hn
  refine ⟨hg.settled ha, hg.settled hb, n', x, r, hn', ?_, ?_, rfl⟩
  · rw [(Node.alike_of_orphan ho).inputs]
    exact hx
  · rw [hg.keeps.feeds b n x hb hn hx, hr]
    intro r' hr'
    rw [hr] at hr'
    cases hr'
    exact ha

theorem Grows.flows (hg : Grows p p') {b : NodeId} (h : ReflTransGen p.Drives a b) :
    ReflTransGen p'.Drives a b :=
  ReflTransGen.mono (fun _ _ => hg.drives) _ _ h

def Reaches (p : Pass) (a : NodeId) (operands : List Operand) : Prop :=
  ∃ h, .handle h ∈ operands ∧ ReflTransGen p.Drives a h.node

theorem Grows.reaches (hg : Grows p p') {operands : List Operand} (h : p.Reaches a operands) :
    p'.Reaches a operands := by
  obtain ⟨g, hmem, hflow⟩ := h
  exact ⟨g, hmem, hg.flows hflow⟩

theorem reaches_of_mem {operands : List Operand} (hh : .handle h ∈ operands) :
    p.Reaches h.node operands := ⟨h, hh, .refl⟩

def Holds (roster : List Handle) (p : Pass) (operands : List Operand) : Prop :=
  ∀ h, .handle h ∈ operands → Known roster p h

/-- The operands in a tag of an operation lead to its results. -/
inductive Sourced (roster : List Handle) (p : Pass) (tag : String) (handles : List Handle) :
    Prop where
  | operation {op : String} {k : Nat} {args : List Operand} (plain : '(' ∉ op.toList)
      (eq : tag = Tag.operation op (markers k args).1) (literals : (markers k args).2 ≤ p.literals)
      (holds : Holds roster p args)
      (flows : ∀ h, .handle h ∈ args → ∀ g ∈ handles, ReflTransGen p.Drives h.node g.node)
  | constant {text : String} (eq : tag = Tag.constantMark ++ text)

theorem Sourced.grows (hg : Grows p p') (h : Sourced roster p tag handles) :
    Sourced roster p' tag handles := by
  cases h with
  | operation plain eq literals holds flows =>
    exact .operation plain eq (Nat.le_trans literals hg.literals)
      (fun h hh => (holds h hh).mono hg.results) fun h hh g hgm => hg.flows (flows h hh g hgm)
  | constant eq => exact .constant eq

/-- A pass in which the operands of each result lead to it. -/
structure Woven (roster : List Handle) (p : Pass) : Prop extends Distinct roster p where
  sound : p.Sound
  inputs : ∀ h ∈ roster, h.node = .groupInput
  sourced : ∀ e ∈ p.results, Sourced roster p e.1 e.2

theorem Woven.settled (hp : p.Woven roster) (hk : Known roster p h) : p.Settled h.node := by
  rcases hk with hk | ⟨e, he, hh⟩
  · exact .inl (hp.inputs h hk)
  · exact .inr ⟨e, he, h, hh, rfl⟩

def IsFrame (p : Pass) (id : NodeId) : Prop := ∃ n, p.tree.node? id = some n ∧ n.type = .frame

/-- From a woven pass, a computation leaves a woven pass and no idle nodes: what
it is given leads to what it gives, and so do the nodes that it takes up. -/
def Drains (roster : List Handle) (p : Pass) (given : List Operand) (m : PassM α)
    (gives : α → List Operand) : Prop :=
  p.Woven roster → Holds roster p given → ∀ a p', m p = (.ok a, p') →
    p'.Woven roster ∧ Grows p p' ∧ Holds roster p' (gives a) ∧
    (∀ h, .handle h ∈ given → p'.Reaches h.node (gives a)) ∧
    ∀ id ∈ p'.used, id ∈ p.used ∨ p'.IsFrame id ∨ p'.Reaches id (gives a)

namespace Drains

variable {given given' r : List Operand} {m : PassM α} {f : α → PassM β}
  {gives : α → List Operand} {out : β → List Operand}

theorem pure {a : α} (h : ∀ g, .handle g ∈ gives a ↔ .handle g ∈ given) :
    Drains roster p given (pure a : PassM α) gives := by
  rintro hp hgiven b p' ⟨⟩
  exact ⟨hp, .refl, fun g hg => hgiven g ((h g).mp hg), fun g hg => reaches_of_mem ((h g).mpr hg),
    fun id hid => .inl hid⟩

theorem throw {fault : Fault} : Drains roster p given (throw fault : PassM α) gives := by
  intro _ _ b p' hb
  cases hb

theorem congr (h : Drains roster p given m gives)
    (hiff : ∀ g, .handle g ∈ given' ↔ .handle g ∈ given) : Drains roster p given' m gives := by
  intro hp hgiven a p' ha
  obtain ⟨hp', hg, hholds, hreach, hused⟩ := h hp (fun g hg => hgiven g ((hiff g).mpr hg)) a p' ha
  exact ⟨hp', hg, hholds, fun g hg => hreach g ((hiff g).mp hg), hused⟩

/-- The next computation takes what the first one gave, and may take more. -/
theorem bind (hm : Drains roster p given m gives)
    (hf : ∀ a p', m p = (.ok a, p') → Drains roster p' (gives a ++ r) (f a) out) :
    Drains roster p (given ++ r) (m >>= f) out := by
  intro hp hgiven b p₂ h
  obtain ⟨a, p₁, h₁, h₂⟩ := bind_eq_ok.mp h
  obtain ⟨hp₁, g₁, hholds₁, hreach₁, hused₁⟩ :=
    hm hp (fun g hg => hgiven g (List.mem_append_left _ hg)) a p₁ h₁
  have hrest : Holds roster p₁ (gives a ++ r) := by
    intro g hg
    rcases List.mem_append.mp hg with hg | hg
    · exact hholds₁ g hg
    · exact (hgiven g (List.mem_append_right _ hg)).mono g₁.results
  obtain ⟨hp₂, g₂, hholds₂, hreach₂, hused₂⟩ := hf a p₁ h₁ hp₁ hrest b p₂ h₂
  -- what leads to a result of the first leads on through the second
  have onward : ∀ {x}, p₁.Reaches x (gives a) → p₂.Reaches x (out b) := by
    rintro x ⟨g, hmem, hflow⟩
    obtain ⟨g', hmem', hflow'⟩ := hreach₂ g (List.mem_append_left _ hmem)
    exact ⟨g', hmem', (g₂.flows hflow).trans hflow'⟩
  refine ⟨hp₂, g₁.trans g₂, hholds₂, fun g hg => ?_, fun id hid => ?_⟩
  · rcases List.mem_append.mp hg with hg | hg
    · exact onward (hreach₁ g hg)
    · exact hreach₂ g (List.mem_append_right _ hg)
  · rcases hused₂ id hid with hid | hid
    · rcases hused₁ id hid with hold | ⟨n, hn, htype⟩ | hflow
      · exact .inl hold
      · obtain ⟨n', hn', hcore⟩ := g₂.cores id hid n hn
        exact .inr (.inl ⟨n', hn', (Node.type_of_core hcore).trans htype⟩)
      · exact .inr (.inr (onward hflow))
    · exact .inr hid

end Drains

theorem Woven.flows_of_known (hp : p.Woven roster) {op : String} (hop : '(' ∉ op.toList)
    (hargs : Holds roster p args)
    (hmem : (Tag.operation op (markers p.literals args).1, handles) ∈ p.results) {g : Handle}
    (hh : .handle h ∈ args) (hg : g ∈ handles) : ReflTransGen p.Drives h.node g.node := by
  have hs := hp.sourced _ hmem
  generalize heq : Tag.operation op (markers p.literals args).1 = tag at hs
  cases hs with
  | operation plain eq literals holds flows =>
    obtain ⟨-, hmarks⟩ := Tag.operation_injective hop plain plain_markers plain_markers
      (heq.trans eq)
    cases operands_of_markers literals hmarks.symm fun g g' hg hg' =>
      hp.unique g g' (holds g hg) (hargs g' hg')
    exact flows h hh g hg
  | constant eq =>
    have := Tag.letter?_of_constant eq
    rw [← heq, Tag.letter?_operation] at this
    exact absurd this (by decide)

theorem Woven.silent (hp : p.Woven roster) (hg : Grows p p') (hr : p'.results = p.results)
    (hs : p'.Sound) : p'.Woven roster where
  toDistinct := hp.toDistinct.of_known (fun h hk => by rwa [Known, hr] at hk) hg.counts
  sound := hs
  inputs := hp.inputs
  sourced := by
    rw [hr]
    exact fun e he => (hp.sourced e he).grows hg

theorem Woven.withLiterals (hp : p.Woven roster) (h : p.literals ≤ k) :
    ({ p with literals := k } : Pass).Woven roster :=
  hp.silent (.withLiterals h) rfl (hp.sound.withLiterals k)

theorem Woven.keep (hp : p.Woven roster) (ht : Tag.IsCall tag) (hh : Known roster p h)
    (hs : Sourced roster p tag [h]) :
    ({ p with results := (tag, [h]) :: p.results } : Pass).Woven roster where
  toDistinct := by
    refine hp.toDistinct.of_known ?_ fun _ => Nat.le_refl _
    rintro g (hg | ⟨e, he, hg⟩)
    · exact .inl hg
    · rcases List.mem_cons.mp he with rfl | he
      · rwa [List.mem_singleton.mp hg]
      · exact .inr ⟨e, he, hg⟩
  sound := hp.sound.keep ht (hp.settled hh)
  inputs := hp.inputs
  sourced := by
    intro e he
    rcases List.mem_cons.mp he with rfl | he
    · exact hs.grows (.keep _ _)
    · exact (hp.sourced e he).grows (.keep _ _)

theorem drives_of_fedAll {inputs : List (Nat × Operand)} (hs : p.Settled h.node)
    (hid : p.Settled id) (hfed : p.tree.FedAll id inputs) (hmem : (k, .handle h) ∈ inputs) :
    p.Drives h.node id := by
  obtain ⟨n, input, hn, hinput, hf⟩ := hfed k _ hmem
  exact ⟨hs, hid, n, input.id, h.socket, hn,
    List.mem_map_of_mem (List.mem_of_getElem? hinput), hf.2, rfl⟩

/-- A new node that takes some operands and gives handles leaves nothing idle. -/
theorem drains_draw {s : Sketch α} (hs : s.Valid) (hr : p.results.lookup s.tag = none)
    (hd : p.Woven roster → Holds roster p args → ∀ {id p₁ q n a p'}, s.Drawn p id p₁ q n a p' →
      p'.Settled id → Sourced roster p' s.tag (s.list a) ∧
        ∀ h, .handle h ∈ args → p'.Drives h.node id) :
    Drains roster p args s.draw fun a => (s.list a).map .handle := by
  intro hp hgiven a p' h
  obtain ⟨id, p₁, q, n, hdrawn⟩ := hs.drawn hp.sound hr h
  have hc := hdrawn.closes
  have htapped := hdrawn.tapped
  obtain ⟨hsourced, hdrives⟩ := hd hp hgiven hdrawn (hdrawn.settled hs)
  have reaches : p'.Reaches id ((s.list a).map .handle) := by
    obtain ⟨g, hg⟩ := List.exists_mem_of_ne_nil _ (hdrawn.ne_nil hs)
    exact ⟨g, List.mem_map_of_mem hg, by rw [htapped.on g hg]⟩
  refine ⟨⟨hp.toDistinct.closes hc htapped.fresh htapped.apart, hc.sound, hp.inputs, ?_⟩, hc.grows,
    ?_, ?_, ?_⟩
  · intro e he
    rw [hc.results] at he
    rcases List.mem_cons.mp he with rfl | he
    · exact hsourced
    · exact (hp.sourced e he).grows hc.grows
  · intro g hg
    obtain ⟨_, hg', ⟨⟩⟩ := List.mem_map.mp hg
    exact hdrawn.known g hg'
  · intro h hh
    obtain ⟨g, hg, hflow⟩ := reaches
    exact ⟨g, hg, .head (hdrives h hh) hflow⟩
  · intro x hx
    rw [hc.used] at hx
    rcases List.mem_cons.mp hx with rfl | hx
    · exact .inr (.inr reaches)
    · exact .inl hx

theorem drains_wired {plan : NodePlan} {read : NodeId → PassM α} {list : α → List Handle}
    {taps : List (Nat × Kind)} {op : String} (hs : (Sketch.wired tag plan read list taps).Valid)
    (hr : p.results.lookup tag = none) (hop : '(' ∉ op.toList)
    (hname : tag = Tag.operation op (markers k args).1) (hl : (markers k args).2 ≤ p.literals)
    (hinputs : (plan.inputs.map Prod.fst).Nodup)
    (hargs : ∀ o, o ∈ plan.inputs.map Prod.snd ↔ o ∈ args) :
    Drains roster p args (Sketch.wired tag plan read list taps).draw
      fun a => (list a).map .handle := by
  refine drains_draw hs hr fun hp hgiven {id p₁ q n a p'} hd hid => ?_
  have hgrows := hd.closes.grows
  have hdrives : ∀ h, .handle h ∈ args → p'.Drives h.node id := by
    intro h hh
    obtain ⟨⟨slot, operand⟩, hslot, rfl⟩ := List.mem_map.mp ((hargs _).mpr hh)
    exact drives_of_fedAll (hgrows.settled (hp.settled (hgiven h hh))) hid
      (hd.wires hinputs).2.2.1 hslot
  refine ⟨.operation hop hname (by rw [hd.closes.literals]; exact hl)
    (fun h hh => (hgiven h hh).mono hgrows.results) fun h hh g hg => ?_, hdrives⟩
  rw [hd.tapped.on g hg]
  exact .single (hdrives h hh)

theorem drains_build {f : Function} {plan : NodePlan} (hpend : p.Pends tag f args)
    (hplan : plan.Proper) (hargs : ∀ o, o ∈ plan.inputs.map Prod.snd ↔ o ∈ args) :
    Drains roster p args (build tag plan) one := by
  intro hp hgiven g p' h
  obtain ⟨k, hname, hliterals⟩ := hpend.name
  have hr := hpend.lookup hp.sound
  rw [build_of_new hr] at h
  exact drains_wired (Sketch.valid_ofPlan hpend.isCall hplan) hr f.no_bracket_name hname hliterals
    hplan.inputs hargs hp hgiven g p' h

theorem drains_separate (v : Operand) :
    Drains roster p [v] (separate v) fun r => [r.1, r.2.1, r.2.2].map .handle := by
  intro hp hgiven r p' h
  have hgrows := Grows.withLiterals (literals_le_markers p.literals [v])
  have hp₀ := hp.withLiterals (literals_le_markers p.literals [v])
  rcases lookup_separation hp.sound ⟨(markers p.literals [v]).1, rfl⟩ with hr | ⟨x, y, z, hr, hmem⟩
  · rw [separate_of_new hr] at h
    obtain ⟨hp', hg, hrest⟩ := drains_wired
      (p := { p with literals := (markers p.literals [v]).2 }) (Sketch.valid_split ⟨_, rfl⟩) hr
      (by decide) rfl (Nat.le_refl _)
      (by simp [Blueprint.separate, Blueprint.plan]) (fun _ => .rfl) hp₀ hgiven r p' h
    exact ⟨hp', hgrows.trans hg, hrest⟩
  · rw [separate_of_known hr] at h
    cases h
    refine ⟨hp₀, hgrows, ?_, ?_, fun id hid => .inl hid⟩
    · intro g hg
      obtain ⟨g', hg', ⟨⟩⟩ := List.mem_map.mp hg
      exact .inr ⟨_, hmem, hg'⟩
    · intro g hg
      exact ⟨x, by simp, hgrows.flows
        (hp.flows_of_known (by decide) hgiven hmem hg List.mem_cons_self)⟩

theorem drains_constant (x : Double) : Drains roster p [] (constant x) one := by
  intro hp hgiven g p' h
  rcases lookup_results hp.sound (Tag.constantMark ++ x.text) with hr | ⟨g', l, hr, hmem⟩
  · rw [constant_of_new hr] at h
    exact drains_draw (Sketch.valid_number x) hr
      (by intros; exact ⟨.constant rfl, by simp⟩) hp hgiven g p' h
  · rw [constant_of_known hr] at h
    cases h
    refine ⟨hp, .refl, ?_, by simp, fun id hid => .inl hid⟩
    intro h hh
    cases List.mem_singleton.mp hh
    exact .inr ⟨_, hmem, List.mem_cons_self⟩

/-- A frame takes up no node but itself. -/
theorem drains_frame {label : String} {members : List NodeId} {m : PassM α}
    {gives : α → List Operand} {given : List Operand}
    (hm : ∀ p', Drains roster p' given m gives) :
    Drains roster p given (do frame tag label members; m) gives := by
  intro hp hgiven a p₂ h
  obtain ⟨u, p₁, h₁, h₂⟩ := bind_eq_ok.mp h
  obtain ⟨id, -, -, hf⟩ := frame_spec hp.sound h₁
  obtain ⟨hp₂, g₂, hholds, hreach, hused⟩ := hm p₁ (hp.silent hf.grows hf.results hf.sound)
    (fun h hh => (hgiven h hh).mono hf.grows.results) a p₂ h₂
  refine ⟨hp₂, hf.grows.trans g₂, hholds, hreach, fun x hx => ?_⟩
  rcases hused x hx with hx | hx
  · rw [hf.used] at hx
    rcases List.mem_cons.mp hx with rfl | hx
    · obtain ⟨n, hn, -, htype, -⟩ := hf.node
      obtain ⟨n', hn', hcore⟩ := g₂.cores x (by rw [hf.used]; exact List.mem_cons_self) n hn
      exact .inr (.inl ⟨n', hn', (Node.type_of_core hcore).trans htype⟩)
    · exact .inl hx
  · exact .inr hx

variable {f : Function}

/-- A call whose tag is made first: it has its result already, or is built. -/
theorem drains_tagged {m : String → PassM Handle}
    (hknown : ∀ {p : Pass} {name : String} {h : Handle} {l : List Handle},
      p.results.lookup name = some (h :: l) → m name p = (.ok h, p))
    (hnew : ∀ {p : Pass} {name : String}, p.Pends name f args → Drains roster p args (m name) one) :
    Drains roster p args (Pass.tag f.name args >>= m) one := by
  intro hp hgiven g p' h
  let p₀ : Pass := { p with literals := (markers p.literals args).2 }
  have hgrows : Grows p p₀ := .withLiterals (literals_le_markers p.literals args)
  have hp₀ : p₀.Woven roster := hp.withLiterals (literals_le_markers p.literals args)
  change m (Tag.operation f.name (markers p.literals args).1) p₀ = _ at h
  rcases lookup_results hp.sound (Tag.operation f.name (markers p.literals args).1) with
    hr | ⟨g', l, hr, hmem⟩
  · have hpend : p₀.Pends _ f args := .of_lookup rfl (Nat.le_refl _) hr
    obtain ⟨hp', hg, hrest⟩ := hnew hpend hp₀ hgiven g p' h
    exact ⟨hp', hgrows.trans hg, hrest⟩
  · rw [hknown (p := p₀) hr] at h
    obtain ⟨⟨⟩, rfl⟩ := Prod.mk.inj h
    refine ⟨hp₀, hgrows, ?_, ?_, fun id hid => .inl hid⟩
    · intro h hh
      cases List.mem_singleton.mp hh
      exact .inr ⟨_, hmem, List.mem_cons_self⟩
    · intro h hh
      exact ⟨g, List.mem_singleton_self _, hgrows.flows
        (hp.flows_of_known f.no_bracket_name hgiven hmem hh List.mem_cons_self)⟩

theorem drains_kept {m : PassM Handle} (hpend : p.Pends tag f args)
    (hm : Drains roster p args m one) : Drains roster p args (unlessKept tag m) one := by
  intro hp hgiven g p' h
  rw [unlessKept_of_new (hpend.lookup hp.sound)] at h
  obtain ⟨g', p₁, h₁, h₂⟩ := bind_eq_ok.mp h
  obtain ⟨rfl, rfl⟩ : g' = g ∧ { p₁ with results := (tag, [g']) :: p₁.results } = p' := by
    cases h₂
    exact ⟨rfl, rfl⟩
  obtain ⟨hp₁, hg, hholds, hreach, hused⟩ := hm hp hgiven g' p₁ h₁
  obtain ⟨k, hname, hliterals⟩ := hpend.name
  have hk : Known roster p₁ g' := hholds g' (List.mem_singleton_self _)
  have hkeep : Grows p₁ { p₁ with results := (tag, [g']) :: p₁.results } := .keep tag g'
  have hflow : ∀ h, .handle h ∈ args → Relation.ReflTransGen p₁.Drives h.node g'.node := by
    intro h hh
    obtain ⟨g, hg, hflow⟩ := hreach h hh
    cases List.mem_singleton.mp hg
    exact hflow
  have hs : Sourced roster p₁ tag [g'] :=
    .operation f.no_bracket_name hname (Nat.le_trans hliterals hg.literals)
      (fun h hh => (hgiven h hh).mono hg.results) fun h hh g hg => by
        rw [List.mem_singleton.mp hg]
        exact hflow h hh
  refine ⟨hp₁.keep hpend.isCall hk hs, hg.trans hkeep, fun h hh => (hholds h hh).mono hkeep.results,
    fun h hh => hkeep.reaches (hreach h hh), fun id hid => ?_⟩
  exact (hused id hid).imp_right (·.imp_right hkeep.reaches)

theorem relay_drains : Relay (Drains roster) fun _ _ => True where
  pure := .pure
  bind hm hf := hm.bind fun a p' ha => hf a p' ha (fun _ h => h) fun _ _ => trivial
  congr := .congr
  lacking _ := .throw
  ofTree _ h := fun hp hgiven a p' ha => h hp hgiven a p' ha
  tagged := drains_tagged
  kept := drains_kept
  build hpend hplan _ hargs := drains_build hpend hplan hargs
  separate := drains_separate
  constant := drains_constant
  frame _ hm := drains_frame hm

/-- Nothing that is built for a term is idle. -/
theorem drains_evaluate {constantNodes : Bool} {inputs : Inputs}
    (hi : ∀ e ∈ inputs, e.2 ∈ roster) (t : Term) :
    Drains roster p [] (evaluate constantNodes inputs t) TermValue.operands := by
  refine relay_drains.evaluate (fun _ => .throw) (fun {p _ h} hl => ?_) t
  rintro hp - v p' ⟨⟩
  refine ⟨hp, .refl, fun g hg => ?_, by simp, fun id hid => .inl hid⟩
  cases List.mem_singleton.mp hg
  exact .inl (hi _ (mem_of_lookup hl))

end FormulaGraph.Pass
