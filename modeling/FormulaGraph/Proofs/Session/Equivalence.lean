import FormulaGraph.Proofs.Formula.TypedNames
import FormulaGraph.Proofs.Session.Beside
import FormulaGraph.Proofs.Session.Runs

/-!
A session pass and `compile`. What a session compiles is its text as it was set,
so the two agree unless names are expanded that were not then.
-/

namespace FormulaGraph.Session

/-- A pass that the session runs over a tree comes to what compiling its text
under the options does. The outcomes are the same, and so are the trees, but for
identities and the frame that holds the text. -/
structure Matches (s : Session) (options : Options) (t : Tree) : Prop where
  outcome : Outcomes (fun report found => found = some report)
    (Tree.compile s.text options t).1 (renew ⟨s, t⟩).1
  tree : t.insertion.Agrees (Tree.compile s.text options t).2 (renew ⟨s, t⟩).2.tree
  note : ∃ n ∈ (renew ⟨s, t⟩).2.tree.nodes,
    n.id = t.textFrameId ∧ n.name = Tree.textFrameName ∧ n.label = s.text

variable {s : Session} {t : Tree} {b : Bound}

theorem renew_eq (s : Session) (t : Tree) :
    (renew ⟨s, t⟩).1 = (s.pass t).1 ∧ (renew ⟨s, t⟩).2.tree = (s.pass t).2 := by
  obtain ⟨outcome, -, hupdate⟩ := update_of_changed (b := ⟨{ s with settled := none }, t⟩) rfl
  have hrenew : renew ⟨s, t⟩ = update ⟨{ s with settled := none }, t⟩ :=
    Call.step_eq .recompile ⟨s, t⟩
  rw [hrenew, hupdate]
  exact ⟨rfl, rfl⟩

/-- A session takes its text as it stands. -/
theorem matches_asTyped (h : t.Regular)
    (hframe : ∀ n, t.nodeNamed? Tree.textFrameName = some n → n.id.isGroup = false)
    (htext : Text.allBlank s.text = false) : s.Matches s.options.asTyped t := by
  obtain ⟨houtcome, htree⟩ := renew_eq s t
  rw [pass_of_text htext] at houtcome htree
  dsimp only at houtcome htree
  have hbeside := Tree.compile_beside h hframe s.text s.text s.options.asTyped
  refine ⟨?_, ?_, ?_⟩
  · rw [houtcome]
    exact hbeside.1.map_right some fun _ _ heq => congrArg some heq.symm
  · rw [htree]
    exact hbeside.2
  · rw [htree]
    exact Tree.note_compile h hframe s.text s.text s.options.asTyped

def Expanded (s : Session) : Prop :=
  s.options.expandNames = true → Symbol.expandNames? s.text = none

theorem Expanded.compile_eq (h : s.Expanded) :
    Tree.compile s.text s.options = Tree.compile s.text s.options.asTyped := by
  have hread : Typed.read s.text s.options = Typed.read s.text s.options.asTyped := by
    unfold Typed.read Options.asTyped
    cases hnames : s.options.expandNames with
    | false => simp
    | true => simp [h hnames]
  funext t
  rw [Tree.compile_run, Tree.compile_run, hread]
  split
  · rw [Tree.realize_congr (a := s.options) (b := s.options.asTyped) rfl rfl rfl fun _ => rfl]
  · rfl

theorem Expanded.matches_options (h : s.Expanded) (hm : s.Matches s.options.asTyped t) :
    s.Matches s.options t := by
  obtain ⟨houtcome, htree, hnote⟩ := hm
  rw [← h.compile_eq] at houtcome htree
  exact ⟨houtcome, htree, hnote⟩

theorem session_update (b : Bound) : (update b).2.session.text = b.session.text ∧
    (update b).2.session.options = b.session.options := by
  cases hc : b.session.isCurrent with
  | true =>
    rw [update_of_current hc]
    exact ⟨rfl, rfl⟩
  | false =>
    obtain ⟨outcome, -, hupdate⟩ := update_of_changed hc
    rw [hupdate]
    exact ⟨rfl, rfl⟩

/-- Names are expanded exactly where they stand, and once is enough. A text without
them is left alone, and one that was expanded is such a text, so a session that is
given the text it holds keeps it. -/
theorem expandNames?_settles (text : String) :
    (Symbol.expandNames? text = none ↔
      ∀ name ∈ ["Pi", "eNum", "Gold"], ¬name.toList <:+: text.toList) ∧
      (∀ expanded, Symbol.expandNames? text = some expanded →
        (∀ name ∈ ["Pi", "eNum", "Gold"], ¬name.toList <:+: expanded.toList) ∧
          Symbol.expandNames? expanded = none ∧
          Symbol.Expands [("Pi", 'π'), ("eNum", '𝑒'), ("Gold", 'φ')] text.toList
            expanded.toList) ∧
      ∀ s : Session, (s.withText text).withText (s.withText text).text = s.withText text := by
  have nameless : ∀ cs, Symbol.Nameless cs ↔
      ∀ name ∈ ["Pi", "eNum", "Gold"], ¬name.toList <:+: cs := fun cs => by
    simp [Symbol.Nameless, Symbol.typedNames]
  rw [← nameless]
  refine ⟨Symbol.expandNames?_eq_none_iff, fun expanded hsome => ?_, fun s => ?_⟩
  · have hfree := Symbol.nameless_expanded text
    have hkept := Symbol.expands_expanded text
    rw [hsome, Option.getD_some] at hfree hkept
    exact ⟨(nameless _).mp hfree, Symbol.expandNames?_eq_none_iff.mpr hfree, hkept⟩
  · unfold withText
    cases s.options.expandNames with
    | false => simp
    | true => simp [Symbol.expandNames?_expanded]

/-- Names side by side, and beginnings of names that are no names. -/
theorem expandNames?_settles_adjacent :
    Symbol.expandNames? "eNumGoldPi*(PPi+eNuGol)" = some "𝑒φπ*(Pπ+eNuGol)" ∧
      Symbol.expandNames? "𝑒φπ*(Pπ+eNuGol)" = none ∧
      Symbol.Expands [("Pi", 'π'), ("eNum", '𝑒'), ("Gold", 'φ')]
        "eNumGoldPi*(PPi+eNuGol)".toList "𝑒φπ*(Pπ+eNuGol)".toList := by
  have hsome : Symbol.expandNames? "eNumGoldPi*(PPi+eNuGol)" = some "𝑒φπ*(Pπ+eNuGol)" := by
    decide +kernel
  exact ⟨hsome, ((expandNames?_settles _).2.1 _ hsome).2⟩

namespace Call

variable {c : Call} {calls : List Call}

def setsText : Call → Bool
  | setText _ | setComponents _ _ _ => true
  | setOptions _ | edited | recompile => false

theorem text_step (hc : c.setsText = false) : (c.step b).2.session.text = b.session.text := by
  rw [step_eq, (session_update _).1]
  cases c with
  | setText _ | setComponents _ _ _ => cases hc
  | setOptions _ | edited | recompile => rfl

theorem text_after (h : ∀ c ∈ calls, c.setsText = false) :
    (b.after calls).session.text = b.session.text := by
  induction calls generalizing b with
  | nil => rfl
  | cons c calls ih =>
    obtain ⟨hc, hcalls⟩ := List.forall_mem_cons.mp h
    exact (ih hcalls).trans (text_step hc)

theorem expandNames?_step (hc : c.setsText = true)
    (hnames : b.session.options.expandNames = true) :
    Symbol.expandNames? (c.step b).2.session.text = none := by
  have hset : ∀ text, Symbol.expandNames? (b.session.withText text).text = none := by
    intro text
    rw [withText, if_pos hnames]
    exact Symbol.expandNames?_expanded text
  rw [step_eq, (session_update _).1]
  cases c with
  | setText text => exact hset text
  | setComponents x y z => exact hset _
  | setOptions _ | edited | recompile => cases hc

/-- Calls either leave the text alone or have a last one that sets it. -/
theorem text_cases (calls : List Call) : (∀ c ∈ calls, c.setsText = false) ∨
    ∃ earlier c later, calls = earlier ++ c :: later ∧ c.setsText = true ∧
      ∀ d ∈ later, d.setsText = false := by
  induction calls with
  | nil => exact .inl nofun
  | cons c calls ih =>
    rcases ih with hnone | ⟨earlier, d, later, rfl, hd, hlater⟩
    · cases hc : c.setsText with
      | true => exact .inr ⟨[], c, calls, rfl, hc, hnone⟩
      | false => exact .inl (List.forall_mem_cons.mpr ⟨hc, hnone⟩)
    · exact .inr ⟨c :: earlier, d, later, rfl, hd, hlater⟩

end Call

/-- Names are expanded now only if they were when the text was set. -/
def Bound.NamesAsSet (b : Bound) (calls : List Call) : Prop :=
  ∀ earlier c later, calls = earlier ++ c :: later → c.setsText = true →
    (∀ d ∈ later, d.setsText = false) →
      (b.after calls).session.options.expandNames = true →
        (b.after earlier).session.options.expandNames = true

theorem Bound.NamesAsSet.expanded {calls : List Call} (h : b.NamesAsSet calls)
    (hb : b.session.text = "") : (b.after calls).session.Expanded := by
  intro hnames
  rcases Call.text_cases calls with hnone | ⟨earlier, c, later, hcalls, hc, hlater⟩
  · rw [Call.text_after hnone, hb]
    decide
  · have hset := h earlier c later hcalls hc hlater hnames
    have hafter : b.after calls = (c.step (b.after earlier)).2.after later := by
      rw [hcalls]
      exact List.foldl_append
    rw [hafter, Call.text_after hlater]
    exact Call.expandNames?_step hc hset

/-- Whatever calls a session has seen, a pass over any tree comes to compiling
its text as it stands. That is compiling its text under its options, unless these
expand names and those under which the text was set did not. -/
theorem renew_matches_compile (hb : b.session.text = "") (calls : List Call) (h : t.Regular)
    (hframe : ∀ n, t.nodeNamed? Tree.textFrameName = some n → n.id.isGroup = false)
    (htext : Text.allBlank (b.after calls).session.text = false) :
    (b.after calls).session.Matches (b.after calls).session.options.asTyped t ∧
      (b.NamesAsSet calls → (b.after calls).session.Matches (b.after calls).session.options t) := by
  have hm := matches_asTyped h hframe htext
  exact ⟨hm, fun hnames => (hnames.expanded hb).matches_options hm⟩

def expandingCalls : List Call := [.setOptions { expandNames := true }, .setText "Pi*a"]

theorem renew_matches_compile_expanding :
    (Tree.framedByHost.writeText "-a").Regular ∧
      ((Bound.new .geometry {}).after expandingCalls).session.text = "π*a" ∧
      ((Bound.new .geometry {}).after expandingCalls).session.Matches
        ((Bound.new .geometry {}).after expandingCalls).session.options
        (Tree.framedByHost.writeText "-a") := by
  have hnames : (Bound.new .geometry {}).NamesAsSet expandingCalls := by
    intro earlier c later hcalls hc _ _
    rcases earlier with _ | ⟨c, _ | ⟨d, earlier⟩⟩
    · cases hcalls
      cases hc
    · cases hcalls
      decide +kernel
    · simp [expandingCalls] at hcalls
  have hregular := Tree.regular_framedByHost.writeText "-a"
  have hframe : ∀ n, (Tree.framedByHost.writeText "-a").nodeNamed? Tree.textFrameName = some n →
      n.id.isGroup = false := by
    have hall : ((Tree.framedByHost.writeText "-a").nodeNamed? Tree.textFrameName).all
        (fun n => !n.id.isGroup) = true := by decide +kernel
    intro n hn
    rw [hn] at hall
    simpa using hall
  have htext : Text.allBlank ((Bound.new .geometry {}).after expandingCalls).session.text =
      false := by
    decide +kernel
  exact ⟨hregular, by decide +kernel,
    (renew_matches_compile rfl expandingCalls hregular hframe htext).2 hnames⟩

def lateNames : Bound :=
  (Bound.new .geometry {}).after [.setText "Pi", .setOptions { expandNames := true }]

/-- A tree whose group input goes by the name of the text frame. The pass makes
it as wide as that, and places what follows accordingly. -/
def wideInput : Tree :=
  (Tree.empty .geometry).modifyNode .groupInput fun n => { n with name := Tree.textFrameName }

theorem pass_differs_from_compile :
    ¬lateNames.session.Matches lateNames.session.options lateNames.tree ∧
      ¬({ text := "a+b" } : Session).Matches {} wideInput := by
  constructor
  · have hok : (Tree.compile lateNames.session.text lateNames.session.options
        lateNames.tree).1.isOk = true := by decide +kernel
    have herror : (renew lateNames).1.isOk = false := by decide +kernel
    rintro ⟨houtcome, -, -⟩
    change Outcomes _ _ (renew lateNames).1 at houtcome
    generalize (Tree.compile lateNames.session.text lateNames.session.options lateNames.tree).1 = r,
      (renew lateNames).1 = r' at houtcome hok herror
    cases houtcome with
    | ok _ => cases herror
    | error _ => cases hok
  · rintro ⟨-, htree, -⟩
    have hnodes := htree.nodes
    revert hnodes
    decide +kernel

end FormulaGraph.Session
