import FormulaGraph.Compile

/-!
Edits and passes run on a state and give a result with a new state, also when
they fail. These equations take a computation apart into its steps.
-/

namespace FormulaGraph.Run

variable {ε σ α β : Type}

instance decidableEqExcept [DecidableEq ε] [DecidableEq α] : DecidableEq (Except ε α)
  | .ok a, .ok b => decidable_of_iff (a = b) ⟨congrArg _, Except.ok.inj⟩
  | .error a, .error b => decidable_of_iff (a = b) ⟨congrArg _, Except.error.inj⟩
  | .ok _, .error _ => .isFalse nofun
  | .error _, .ok _ => .isFalse nofun

@[simp] theorem pure_run (a : α) (s : σ) :
    (pure a : ExceptT ε (StateM σ) α) s = (.ok a, s) := rfl

@[simp] theorem throw_run (e : ε) (s : σ) :
    (throw e : ExceptT ε (StateM σ) α) s = (.error e, s) := rfl

@[simp] theorem get_run (s : σ) :
    (get : ExceptT ε (StateM σ) σ) s = (.ok s, s) := rfl

@[simp] theorem set_run (s s' : σ) :
    (set s' : ExceptT ε (StateM σ) PUnit) s = (.ok ⟨⟩, s') := rfl

@[simp] theorem modify_run (f : σ → σ) (s : σ) :
    (modify f : ExceptT ε (StateM σ) PUnit) s = (.ok ⟨⟩, f s) := rfl

theorem bind_run (m : ExceptT ε (StateM σ) α) (f : α → ExceptT ε (StateM σ) β) (s : σ) :
    (m >>= f) s = match m s with
      | (.ok a, s') => f a s'
      | (.error e, s') => (.error e, s') := by
  show (ExceptT.bind m f) s = _
  unfold ExceptT.bind ExceptT.mk ExceptT.bindCont
  show (StateT.bind _ _) s = _
  unfold StateT.bind
  simp only [bind]
  rcases m s with ⟨r, s'⟩
  cases r <;> rfl

theorem tryCatch_run (m : ExceptT ε (StateM σ) α) (f : ε → ExceptT ε (StateM σ) α) (s : σ) :
    (tryCatch m f) s = match m s with
      | (.ok a, s') => (.ok a, s')
      | (.error e, s') => f e s' := by
  show (ExceptT.tryCatch m f) s = _
  unfold ExceptT.tryCatch ExceptT.mk
  show (StateT.bind _ _) s = _
  unfold StateT.bind
  simp only [bind]
  rcases m s with ⟨r, s'⟩
  cases r <;> rfl

variable {m : ExceptT ε (StateM σ) α} {f : α → ExceptT ε (StateM σ) β}
  {s s' s₁ : σ} {a : α} {b : β} {e : ε}

theorem bind_of_ok (h : m s = (.ok a, s₁)) : (m >>= f) s = f a s₁ := by
  rw [bind_run, h]

theorem bind_of_error (h : m s = (.error e, s₁)) : (m >>= f) s = (.error e, s₁) := by
  rw [bind_run, h]

theorem discard_of_ok (h : m s = (.ok a, s₁)) : discard m s = (.ok ⟨⟩, s₁) := by
  show (m >>= fun _ => pure ()) s = _
  rw [bind_of_ok h]
  rfl

theorem snd_bind_pure (g : α → β) : ((m >>= fun a => pure (g a)) s).2 = (m s).2 := by
  rw [bind_run]
  rcases m s with ⟨r | r, s₁⟩ <;> rfl

theorem bind_eq_ok : (m >>= f) s = (.ok b, s') ↔
    ∃ a s₁, m s = (.ok a, s₁) ∧ f a s₁ = (.ok b, s') := by
  rw [bind_run]
  rcases m s with ⟨r | r, s₂⟩
  · constructor
    · intro h
      cases h
    · rintro ⟨a, s₁, h, -⟩
      cases h
  · constructor
    · intro h
      exact ⟨r, s₂, rfl, h⟩
    · rintro ⟨a, s₁, h, h'⟩
      cases h
      exact h'

theorem eq_of_fst {x : Except ε α × σ} {r : Except ε α} (h : x.1 = r) : x = (r, x.2) := by
  rw [← h]

end FormulaGraph.Run
