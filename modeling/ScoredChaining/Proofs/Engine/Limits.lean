import ScoredChaining.Proofs.Engine.Balance
import ScoredChaining.Proofs.Engine.Counts
import ScoredChaining.Proofs.Engine.Safety

/-!
A limit only cuts a run short.

* `Engine.runCounting_eq`: to count down from the limit is to compare it with the candidates that were
  taken since the run began, whatever was taken before.
* `Engine.Goes.steps_eq_take`, `Engine.Goes.of_wider`, `Engine.Goes.append`: a run with a limit takes the
  first steps of the run without one, is that run unless the limit stops it, and leaves to a second run
  what a longer one goes on with.
* `Engine.runWithin_cut`: these together, with the counts of the parts.
-/

namespace ScoredChaining

variable {Custom : Type} [Decider Custom]

namespace Engine

variable {e : Engine Custom} {mode : Mode} {n m fuel : Nat} {limit : Option Nat} {r : Run Custom}

/-! ### Counting -/

/-- The loop that compares the limit with the candidates that were taken since there were `before`. -/
def runCounting (mode : Mode) (fuel : Nat) (limit : Option Nat) (before : Nat) (e : Engine Custom) :
    Run Custom :=
  if e.agenda.isEmpty then ⟨.exhausted, [], e⟩
  else if limit.any fun max => max ≤ e.stats.pops - before then ⟨.limited, [], e⟩
  else
    match fuel with
    | 0 => ⟨.outOfFuel, [], e⟩
    | fuel + 1 =>
      match e.step mode with
      | (.error failure, e) => ⟨.failed failure, [], e⟩
      | (.ok s, e) =>
        let rest := runCounting mode fuel limit before e
        { rest with steps := s :: rest.steps }

/-- The limit has been reached just if nothing is left of it. -/
theorem any_le_iff (limit : Option Nat) (taken : Nat) :
    (limit.any fun max => max ≤ taken) = true ↔ limit.map (· - taken) = some 0 := by
  cases limit with
  | none => simp
  | some max => simp [Nat.sub_eq_zero_iff_le]

/-- Every step counts one candidate, so what is left of the limit is what was not counted. -/
theorem runCounting_eq_of_taken {before taken : Nat} (counted : e.stats.pops = before + taken)
    (mode : Mode) (fuel : Nat) (limit : Option Nat) :
    runCounting mode fuel limit before e = runWithin mode fuel (limit.map (· - taken)) e := by
  have sofar : e.stats.pops - before = taken := by omega
  induction fuel generalizing e taken with
  | zero =>
    rw [runCounting, runWithin, sofar]
    simp only [any_le_iff]
  | succ fuel ih =>
    rw [runCounting, runWithin, sofar]
    simp only [any_le_iff]
    cases stepped : e.step mode with
    | mk answer e' =>
      cases answer with
      | error failure => rfl
      | ok s =>
        have pops := pops_step stepped
        have next : e'.stats.pops = before + (taken + 1) := by omega
        have less : (limit.map (· - taken)).map (· - 1) = limit.map (· - (taken + 1)) := by
          cases limit <;> rfl
        simp only [ih next (by omega), less]

/-- Counting down from the limit, a run stops where the count of all candidates ever taken says. -/
theorem runCounting_eq (mode : Mode) (fuel : Nat) (limit : Option Nat) (e : Engine Custom) :
    runCounting mode fuel limit e.stats.pops e = runWithin mode fuel limit e := by
  have same : limit.map (· - 0) = limit := by cases limit <;> rfl
  have none : e.stats.pops = e.stats.pops + 0 := rfl
  rw [runCounting_eq_of_taken none, same]

/-- A run lowers no count. -/
theorem counts_runWithin (mode : Mode) (fuel : Nat) (limit : Option Nat) (e : Engine Custom) :
    e.stats.Le (runWithin mode fuel limit e).engine.stats := by
  have step : ∀ e' : Engine Custom, e.stats.Le e'.stats → e.stats.Le (e'.step mode).2.stats :=
    fun e' counted => counted.trans (counts_step e' mode)
  exact runWithin_keeps step (.refl _) fuel limit

/-! ### Where a limited run stops -/

namespace Goes

/-- Fuel for as many steps as the limit allows is enough. -/
theorem ended (goes : Goes mode fuel limit e r) (isLimit : limit = some n) (enough : n ≤ fuel) :
    r.ending ≠ .outOfFuel := by
  induction goes generalizing n with
  | outOfFuel _ within => exact absurd (Nat.le_zero.mp enough ▸ isLimit) within
  | step _ _ _ _ ih =>
    have less : Option.map (· - 1) _ = some (n - 1) := congrArg (Option.map (· - 1)) isLimit
    exact ih less (by omega)
  | _ => exact nofun

/-- A limited run takes the first steps of the run without a limit. -/
theorem steps_eq_take (goes : Goes mode fuel limit e r) (isLimit : limit = some n)
    (ended : r.ending ≠ .outOfFuel) : r.steps = (runWithin mode fuel none e).steps.take n := by
  induction goes generalizing n with
  | exhausted empty => rw [runWithin_of_isEmpty empty, List.take_nil]
  | limited =>
    obtain rfl := Option.some.inj isLimit
    rfl
  | outOfFuel => exact absurd rfl ended
  | @failed fuel _ e _ _ left _ stepped =>
    have unlimited : Goes mode (fuel + 1) none e _ := .failed left (by simp) stepped
    rw [unlimited.eq, List.take_nil]
  | @step fuel _ e e' _ _ left within stepped _ ih =>
    obtain ⟨n, rfl⟩ : ∃ k, n = k + 1 := by
      refine ⟨n - 1, ?_⟩
      have : n ≠ 0 := fun none => within (none ▸ isLimit)
      omega
    have less : Option.map (· - 1) _ = some n := congrArg (Option.map (· - 1)) isLimit
    have unlimited : Goes mode (fuel + 1) none e _ :=
      .step left (by simp) stepped (Engine.goes mode fuel none e')
    rw [unlimited.eq, List.take_succ_cons, ih less ended]

/-- A run that its limit does not stop is the run with any wider limit, or with none: it fails at the
same step, or leaves nothing pending. -/
theorem of_wider {wide : Option Nat} (goes : Goes mode fuel limit e r)
    (unstopped : r.ending ≠ .limited) (wider : ∀ max ∈ wide, ∃ min ∈ limit, min ≤ max) :
    Goes mode fuel wide e r := by
  have within {wide limit : Option Nat} (within : limit ≠ some 0)
      (wider : ∀ max ∈ wide, ∃ min ∈ limit, min ≤ max) : wide ≠ some 0 := by
    intro none
    obtain ⟨min, isMin, le⟩ := wider 0 none
    exact within (Nat.le_zero.mp le ▸ isMin)
  induction goes generalizing wide with
  | exhausted empty => exact .exhausted empty
  | limited => exact absurd rfl unstopped
  | outOfFuel left some => exact .outOfFuel left (within some wider)
  | failed left some stepped => exact .failed left (within some wider) stepped
  | step left some stepped _ ih =>
    refine .step left (within some wider) stepped (ih unstopped fun max isMax => ?_)
    obtain ⟨max, known, rfl⟩ := Option.map_eq_some_iff.mp isMax
    obtain ⟨min, isMin, le⟩ := wider max known
    exact ⟨min - 1, Option.mem_map_of_mem _ isMin, by omega⟩

/-- What a run that has not failed leaves to do is what a longer run goes on with. -/
theorem append (goes : Goes mode fuel limit e r) (isLimit : limit = some n) (enough : n + m ≤ fuel)
    (succeeds : ∀ failure, r.ending ≠ .failed failure) :
    let second := runWithin mode fuel (some m) r.engine
    Goes mode fuel (some (n + m)) e ⟨second.ending, r.steps ++ second.steps, second.engine⟩ := by
  induction goes generalizing n with
  | exhausted empty =>
    rw [runWithin_of_isEmpty empty]
    exact .exhausted empty
  | @limited fuel e =>
    obtain rfl := Option.some.inj isLimit
    rw [Nat.zero_add]
    exact Engine.goes mode fuel (some m) e
  | outOfFuel _ within =>
    have none : n = 0 := by omega
    exact absurd (none ▸ isLimit) within
  | failed => exact absurd rfl (succeeds _)
  | @step fuel _ _ _ _ r left within stepped _ ih =>
    have positive : n ≠ 0 := fun none => within (none ▸ isLimit)
    have within' : some (n + m) ≠ some 0 := by
      rw [Ne, Option.some.injEq]
      omega
    have less : Option.map (· - 1) _ = some (n - 1) := congrArg (Option.map (· - 1)) isLimit
    -- The second run has a unit of fuel more than the induction gives it.
    have fewer : m ≤ fuel := by omega
    have spare := runWithin_of_ended ((Engine.goes mode fuel (some m) r.engine).ended rfl fewer)
      (Nat.le_succ fuel)
    have rest := ih less (by omega) succeeds
    have sum : n - 1 + m = n + m - 1 := by omega
    rw [spare]
    exact .step left within' stepped (sum ▸ rest)

end Goes

/-- A run with a limit of `n` steps comes to an end and takes the first `n` steps of the run without a
limit. If the limit does not stop it, it is the run with a wider limit and the one without, which then
fail at the same step. If it does not fail, it says that it hit the limit just if candidates are left,
and a run of `m` more steps makes of it the run with a limit of `n + m`, whose counts are the sums of
the counts of the parts. -/
theorem runWithin_cut (mode : Mode) (n m fuel : Nat) (enough : n + m ≤ fuel) (e : Engine Custom) :
    let first := runWithin mode fuel (some n) e
    let second := runWithin mode fuel (some m) first.engine
    let whole := runWithin mode fuel (some (n + m)) e
    first.ending ≠ .outOfFuel ∧
    first.steps = (runWithin mode fuel none e).steps.take n ∧
    (first.ending ≠ .limited → whole = first ∧ runWithin mode fuel none e = first) ∧
    ((∀ failure, first.ending ≠ .failed failure) →
      ((first.stats e.stats).hitPopLimit = true ↔ first.engine.agenda.isEmpty = false) ∧
      whole = ⟨second.ending, first.steps ++ second.steps, second.engine⟩ ∧
      whole.stats e.stats = (first.stats e.stats).plus (second.stats first.engine.stats)) := by
  intro first second whole
  have goes : Goes mode fuel (some n) e first := goes mode fuel (some n) e
  have ended : first.ending ≠ .outOfFuel := goes.ended rfl (by omega)
  refine ⟨ended, goes.steps_eq_take rfl ended, fun unstopped => ?_, fun succeeds => ?_⟩
  · exact ⟨(goes.of_wider unstopped (by simp)).eq, (goes.of_wider unstopped (by simp)).eq⟩
  · have composed : whole = ⟨second.ending, first.steps ++ second.steps, second.engine⟩ :=
      (goes.append rfl enough succeeds).eq
    refine ⟨?_, composed, ?_⟩
    · rw [Run.stats, decide_eq_true_iff]
      constructor
      · exact left_of_limited
      · intro left
        cases ending : first.ending with
        | limited => rfl
        | exhausted => exact absurd (isEmpty_of_exhausted ending) (by simp [first, left])
        | failed failure => exact absurd ending (succeeds failure)
        | outOfFuel => exact absurd ending ended
    · have sum : second.engine.stats.since e.stats =
          (first.engine.stats.since e.stats).plus
            (second.engine.stats.since first.engine.stats) :=
        RunStats.since_plus (counts_runWithin mode fuel (some n) e)
          (counts_runWithin mode fuel (some m) first.engine)
      rw [composed]
      simp only [Run.stats, sum, RunStats.plus]

/-- The second link is committed within the limit, and the path that it completes after it. Where the
policies disagree about the first candidate, the limited run and the run without a limit both fail with
that. -/
theorem runWithin_cut_expecting :
    Reachable expecting ∧ Reachable divided ∧ 1 + 1 ≤ 2 ∧
    (let first := runWithin .decoder 2 (some 1) expecting
    let second := runWithin .decoder 2 (some 1) first.engine
    let whole := runWithin .decoder 2 (some (1 + 1)) expecting
    first.ending = .limited ∧ second.ending = .exhausted ∧
      (first.stats expecting.stats).hitPopLimit = true ∧
      first.engine.agenda.isEmpty = false ∧
      first.steps = (runWithin .decoder 2 none expecting).steps.take 1 ∧
      whole = ⟨second.ending, first.steps ++ second.steps, second.engine⟩ ∧
      whole.stats expecting.stats =
        (first.stats expecting.stats).plus (second.stats first.engine.stats)) ∧
    ∃ failure, (runWithin .decoder 2 (some 1) divided).ending = .failed failure ∧
      runWithin .decoder 2 (some (1 + 1)) divided = runWithin .decoder 2 (some 1) divided ∧
      runWithin .decoder 2 none divided = runWithin .decoder 2 (some 1) divided := by
  have limited : (runWithin .decoder 2 (some 1) expecting).ending = .limited := by decide +kernel
  have exhausted : (runWithin .decoder 2 (some 1)
      (runWithin .decoder 2 (some 1) expecting).engine).ending = .exhausted := by
    decide +kernel
  obtain ⟨_, steps, _, going⟩ := runWithin_cut .decoder 1 1 2 (by decide) expecting
  obtain ⟨hit, whole, stats⟩ := going (by simp [limited])
  have flag : ((runWithin .decoder 2 (some 1) expecting).stats
      expecting.stats).hitPopLimit = true := by
    simp [Run.stats, limited]
  obtain ⟨_, _, unstopped, _⟩ := runWithin_cut .decoder 1 1 2 (by decide) divided
  obtain ⟨failure, failed⟩ :
      ∃ failure, (runWithin .decoder 2 (some 1) divided).ending = .failed failure := by
    have left : divided.agenda.isEmpty = false := by decide +kernel
    have refused : (divided.step .decoder).1.isOk = false := by decide +kernel
    cases stepped : divided.step .decoder with
    | mk answer e' =>
      cases answer with
      | error failure =>
        have fails : Goes .decoder 2 (some 1) divided _ := .failed left (by simp) stepped
        exact ⟨failure, congrArg Run.ending fails.eq⟩
      | ok s => simp [stepped, Except.isOk, Except.toBool] at refused
  exact ⟨reachable_expecting, built_divided.reachable, by decide,
    ⟨limited, exhausted, flag, hit.mp flag, steps, whole, stats⟩,
    failure, failed, unstopped (by simp [failed])⟩

end Engine

end ScoredChaining
