import ScoredChaining.Engine.Run

/-!
How a run goes.

* `Engine.Goes`: a run, with one constructor for each way in which it can end or go on. It is
  the function (`Engine.goes`, `Engine.Goes.eq`), so what holds of runs is shown by induction on it.
* `Engine.runWithin_keeps`: what every step keeps is kept by a run.
* `Engine.runWithin_of_ended`: a run that has ended does not change with more fuel.
-/

namespace ScoredChaining

variable {Custom : Type} [Decider Custom]

namespace Engine

variable {mode : Mode} {fuel more : Nat} {limit : Option Nat} {e : Engine Custom} {r : Run Custom}

/-- With this fuel and this limit the run of the engine is this one. -/
inductive Goes (mode : Mode) : Nat → Option Nat → Engine Custom → Run Custom → Prop where
  | exhausted {fuel : Nat} {limit : Option Nat} {e : Engine Custom}
      (empty : e.agenda.isEmpty = true) :
      Goes mode fuel limit e ⟨.exhausted, [], e⟩
  | limited {fuel : Nat} {e : Engine Custom} (left : e.agenda.isEmpty = false) :
      Goes mode fuel (some 0) e ⟨.limited, [], e⟩
  | outOfFuel {limit : Option Nat} {e : Engine Custom} (left : e.agenda.isEmpty = false)
      (within : limit ≠ some 0) : Goes mode 0 limit e ⟨.outOfFuel, [], e⟩
  | failed {fuel : Nat} {limit : Option Nat} {e e' : Engine Custom} {failure : EngineError}
      (left : e.agenda.isEmpty = false) (within : limit ≠ some 0)
      (stepped : e.step mode = (.error failure, e')) :
      Goes mode (fuel + 1) limit e ⟨.failed failure, [], e'⟩
  | step {fuel : Nat} {limit : Option Nat} {e e' : Engine Custom} {s : Step} {r : Run Custom}
      (left : e.agenda.isEmpty = false) (within : limit ≠ some 0)
      (stepped : e.step mode = (.ok s, e')) (rest : Goes mode fuel (limit.map (· - 1)) e' r) :
      Goes mode (fuel + 1) limit e ⟨r.ending, s :: r.steps, r.engine⟩

theorem goes (mode : Mode) (fuel : Nat) (limit : Option Nat) (e : Engine Custom) :
    Goes mode fuel limit e (runWithin mode fuel limit e) := by
  fun_induction runWithin mode fuel limit e with
  | case1 fuel limit e empty => exact .exhausted empty
  | case2 fuel e left => exact .limited (by simpa using left)
  | case3 limit e left within => exact .outOfFuel (by simpa using left) within
  | case4 limit e left within fuel failure e' stepped =>
    exact .failed (by simpa using left) within stepped
  | case5 limit e left within fuel s e' stepped rest ih =>
    exact .step (by simpa using left) within stepped ih

theorem Goes.eq (goes : Goes mode fuel limit e r) : runWithin mode fuel limit e = r := by
  induction goes with
  | exhausted empty => rw [runWithin.eq_def, if_pos empty]
  | limited left => rw [runWithin.eq_def, if_neg (by simp [left]), if_pos rfl]
  | outOfFuel left within => rw [runWithin, if_neg (by simp [left]), if_neg within]
  | failed left within stepped => rw [runWithin, if_neg (by simp [left]), if_neg within, stepped]
  | step left within stepped _ ih =>
    rw [runWithin, if_neg (by simp [left]), if_neg within, stepped]
    simp only [ih]

theorem runWithin_of_isEmpty (empty : e.agenda.isEmpty = true) (mode : Mode) (fuel : Nat)
    (limit : Option Nat) : runWithin mode fuel limit e = ⟨.exhausted, [], e⟩ :=
  (Goes.exhausted empty).eq

/-! ### Where a run leads -/

/-- What every step keeps is kept by a run, however it ends. -/
theorem runWithin_keeps {kept : Engine Custom → Prop} (step : ∀ e, kept e → kept (e.step mode).2)
    (keeps : kept e) (fuel : Nat) (limit : Option Nat) :
    kept (runWithin mode fuel limit e).engine := by
  have goes := goes mode fuel limit e
  generalize runWithin mode fuel limit e = r at goes
  induction goes with
  | failed _ _ stepped => simpa [stepped] using step _ keeps
  | step _ _ stepped _ ih => exact ih (by simpa [stepped] using step _ keeps)
  | _ => exact keeps

/-- Nothing is pending after a run that ends because nothing is pending. -/
theorem isEmpty_of_exhausted (exhausted : (runWithin mode fuel limit e).ending = .exhausted) :
    (runWithin mode fuel limit e).engine.agenda.isEmpty = true := by
  have goes := goes mode fuel limit e
  generalize runWithin mode fuel limit e = r at goes exhausted
  induction goes with
  | exhausted empty => exact empty
  | step _ _ _ _ ih => exact ih exhausted
  | _ => cases exhausted

/-- A limit stops a run only if candidates are left. -/
theorem left_of_limited (limited : (runWithin mode fuel limit e).ending = .limited) :
    (runWithin mode fuel limit e).engine.agenda.isEmpty = false := by
  have goes := goes mode fuel limit e
  generalize runWithin mode fuel limit e = r at goes limited
  induction goes with
  | limited left => exact left
  | step _ _ _ _ ih => exact ih limited
  | _ => cases limited

/-- A run that has ended does not change with more fuel. -/
theorem runWithin_of_ended (ended : (runWithin mode fuel limit e).ending ≠ .outOfFuel)
    (enough : fuel ≤ more) : runWithin mode more limit e = runWithin mode fuel limit e := by
  have goes := goes mode fuel limit e
  generalize runWithin mode fuel limit e = r at goes ended
  refine Goes.eq ?_
  induction goes generalizing more with
  | exhausted empty => exact .exhausted empty
  | limited left => exact .limited left
  | outOfFuel => exact absurd rfl ended
  | failed left within stepped =>
    obtain ⟨more, rfl⟩ : ∃ k, more = k + 1 := ⟨more - 1, by omega⟩
    exact .failed left within stepped
  | step left within stepped _ ih =>
    obtain ⟨more, rfl⟩ : ∃ k, more = k + 1 := ⟨more - 1, by omega⟩
    exact .step left within stepped (ih (by omega) ended)

end Engine

end ScoredChaining
