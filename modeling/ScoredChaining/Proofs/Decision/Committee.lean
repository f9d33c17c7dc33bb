import ScoredChaining.Decision.Policy

/-!
How a committee decides.

* `Policy.Poll`: the ways in which a poll of the members can end, with what it leaves of them. It
  asks the members in order, each once, and ends early at the first that contradicts the first
  answer or that fails. The members after that one are not asked.
* `Policy.decide_unanimous`: every decision of a committee is such a poll.

Members of a custom kind may record how often they are asked, so what a poll leaves of the members
also tells how often it has asked each of them.
-/

namespace ScoredChaining

namespace Policy

variable {Custom : Type} [Decider Custom] {e : Edge} {score : Float}

/-- The policy after it was asked about the candidate. -/
def asked (e : Edge) (score : Float) (p : Policy Custom) : Policy Custom :=
  (p.decide e score).2

/-- What the policy answers about the candidate. -/
def Answers (e : Edge) (score : Float) (p : Policy Custom) (answer : Option Bool) : Prop :=
  (p.decide e score).1 = .ok answer

/-- The policy answers this about the candidate, if it has an answer. -/
def Joins (e : Edge) (score : Float) (answer : Bool) (p : Policy Custom) : Prop :=
  p.Answers e score none ∨ p.Answers e score (some answer)

/-- How a poll of the members about a candidate ends: the answer of the committee, and what is left
of the members. -/
inductive Poll (e : Edge) (score : Float) (members : List (Policy Custom)) :
    Except DecisionError (Option Bool) → List (Policy Custom) → Prop where
  /-- Every member is asked, and none has an answer. -/
  | silent (all : ∀ m ∈ members, m.Answers e score none) :
      Poll e score members (.ok none) (members.map (asked e score))
  /-- Every member is asked, and all that have an answer give the same. -/
  | agreed {before after : List (Policy Custom)} {first : Policy Custom} {answer : Bool}
      (split : members = before ++ first :: after)
      (quiet : ∀ m ∈ before, m.Answers e score none)
      (speaks : first.Answers e score (some answer))
      (others : ∀ m ∈ after, m.Joins e score answer) :
      Poll e score members (.ok (some answer)) (members.map (asked e score))
  /-- A member contradicts the first answer. The members after it are not asked. -/
  | divided {before between after : List (Policy Custom)} {first second : Policy Custom}
      {answer : Bool} (split : members = before ++ first :: (between ++ second :: after))
      (quiet : ∀ m ∈ before, m.Answers e score none)
      (speaks : first.Answers e score (some answer))
      (others : ∀ m ∈ between, m.Joins e score answer)
      (differs : second.Answers e score (some !answer)) :
      Poll e score members
        (.error (.disagreement e (first.asked e score).describe answer
          (second.asked e score).describe !answer))
        ((before ++ first :: (between ++ [second])).map (asked e score) ++ after)
  /-- A member fails, and none before it contradicts another. The members after it are not
  asked. -/
  | failed {before after : List (Policy Custom)} {m : Policy Custom} {answer : Bool}
      {failure : DecisionError} (split : members = before ++ m :: after)
      (others : ∀ m ∈ before, m.Joins e score answer)
      (fails : (m.decide e score).1 = .error failure) :
      Poll e score members (.error failure) ((before ++ [m]).map (asked e score) ++ after)

/-- How a poll goes on after the first answer. -/
inductive Remaining (e : Edge) (score : Float) (speaker : String) (answer : Bool)
    (members : List (Policy Custom)) :
    Except DecisionError (Option Bool) → List (Policy Custom) → Prop where
  | agreed (others : ∀ m ∈ members, m.Joins e score answer) :
      Remaining e score speaker answer members (.ok (some answer)) (members.map (asked e score))
  | divided {between after : List (Policy Custom)} {second : Policy Custom}
      (split : members = between ++ second :: after)
      (others : ∀ m ∈ between, m.Joins e score answer)
      (differs : second.Answers e score (some !answer)) :
      Remaining e score speaker answer members
        (.error (.disagreement e speaker answer (second.asked e score).describe !answer))
        ((between ++ [second]).map (asked e score) ++ after)
  | failed {between after : List (Policy Custom)} {m : Policy Custom} {failure : DecisionError}
      (split : members = between ++ m :: after)
      (others : ∀ m ∈ between, m.Joins e score answer)
      (fails : (m.decide e score).1 = .error failure) :
      Remaining e score speaker answer members (.error failure)
        ((between ++ [m]).map (asked e score) ++ after)

variable {speaker : String} {answer : Bool} {members rest rest' : List (Policy Custom)}
  {common : Except DecisionError (Option Bool)} {m : Policy Custom}

/-- A member that does not contradict the first answer is asked and leaves the rest as it is. -/
theorem Remaining.cons (joins : m.Joins e score answer)
    (remaining : Remaining e score speaker answer rest common rest') :
    Remaining e score speaker answer (m :: rest) common (m.asked e score :: rest') := by
  cases remaining with
  | agreed others => exact .agreed (List.forall_mem_cons.mpr ⟨joins, others⟩)
  | divided split others differs =>
    exact .divided (congrArg (m :: ·) split) (List.forall_mem_cons.mpr ⟨joins, others⟩) differs
  | failed split others fails =>
    exact .failed (congrArg (m :: ·) split) (List.forall_mem_cons.mpr ⟨joins, others⟩) fails

theorem decideAll_some (speaker : String) (answer : Bool) (members : List (Policy Custom)) :
    Remaining e score speaker answer members
      (decideAll e score (some (answer, speaker)) members).1
      (decideAll e score (some (answer, speaker)) members).2 := by
  induction members with
  | nil => exact .agreed nofun
  | cons m rest ih =>
    rw [decideAll]
    rcases asking : m.decide e score with ⟨failure | _ | given, m'⟩
    all_goals
      have left : m' = m.asked e score := by rw [asked, asking]
      subst left
    · exact .failed (List.nil_append _).symm nofun (by rw [asking])
    · exact ih.cons (.inl (by rw [Answers, asking]))
    · by_cases same : answer = given
      · subst same
        simpa using ih.cons (.inr (by rw [Answers, asking]))
      · obtain rfl : given = !answer := by cases answer <;> cases given <;> simp_all
        have differs : m.Answers e score (some !answer) := by rw [Answers, asking]
        have divided : Remaining e score speaker answer (m :: rest) _ _ :=
          .divided (List.nil_append _).symm nofun differs
        simpa [same] using divided

/-- A member without an answer is asked and leaves the poll as it is. -/
theorem Poll.cons (quiet : m.Answers e score none)
    (poll : Poll e score rest common rest') :
    Poll e score (m :: rest) common (m.asked e score :: rest') := by
  cases poll with
  | silent all => exact .silent (List.forall_mem_cons.mpr ⟨quiet, all⟩)
  | agreed split before speaks others =>
    exact .agreed (congrArg (m :: ·) split) (List.forall_mem_cons.mpr ⟨quiet, before⟩) speaks others
  | divided split before speaks others differs =>
    exact .divided (congrArg (m :: ·) split) (List.forall_mem_cons.mpr ⟨quiet, before⟩) speaks
      others differs
  | failed split others fails =>
    exact .failed (congrArg (m :: ·) split) (List.forall_mem_cons.mpr ⟨.inl quiet, others⟩) fails

/-- With the first answer the poll goes on as the rest of it. -/
theorem Remaining.poll (speaks : m.Answers e score (some answer))
    (remaining : Remaining e score (m.asked e score).describe answer rest common rest') :
    Poll e score (m :: rest) common (m.asked e score :: rest') := by
  cases remaining with
  | agreed others => exact .agreed (List.nil_append _).symm nofun speaks others
  | divided split others differs =>
    subst split
    exact .divided (List.nil_append _).symm nofun speaks others differs
  | failed split others fails =>
    exact .failed (congrArg (m :: ·) split) (List.forall_mem_cons.mpr ⟨.inr speaks, others⟩) fails

theorem decideAll_none (members : List (Policy Custom)) :
    Poll e score members (decideAll e score none members).1 (decideAll e score none members).2 := by
  induction members with
  | nil => exact .silent nofun
  | cons m rest ih =>
    rw [decideAll]
    rcases asking : m.decide e score with ⟨failure | _ | answer, m'⟩
    all_goals
      have left : m' = m.asked e score := by rw [asked, asking]
      subst left
    · exact .failed (List.nil_append _).symm (List.forall_mem_nil (Joins e score true))
        (by rw [asking])
    · exact ih.cons (by rw [Answers, asking])
    · exact (decideAll_some _ answer rest).poll (by rw [Answers, asking])

/-- A committee decides by a poll of its members. -/
theorem decide_unanimous (e : Edge) (score : Float) (members : List (Policy Custom)) :
    ∃ answer left, (unanimous members).decide e score = (answer, .unanimous left) ∧
      Poll e score members answer left :=
  ⟨_, _, by rw [decide], decideAll_none members⟩

/-- Three constraints over the links from a point, the second of which knows of a committed one. -/
def torn : List Policy :=
  [.group ⟨.exactlyOne, ⟨0⟩, [0], [], "EXACTLY_ONE:link(x,y):x"⟩,
    .group ⟨.atMostOne, ⟨0⟩, [0], [[some ⟨.temporary, 0⟩]], "AT_MOST_ONE:link(x,y):x"⟩,
    .group ⟨.atLeastOne, ⟨0⟩, [0], [], "AT_LEAST_ONE:link(x,y):x"⟩]

/-- Where the second member contradicts the first, the third is not asked and records nothing. -/
theorem not_all_asked_torn :
    ¬∀ (e : Edge) (score : Float) (members : List Policy),
      (∀ m ∈ members, ∀ failure, (m.decide e score).1 ≠ .error failure) →
        ((unanimous members).decide e score).2 = .unanimous (members.map (asked e score)) := by
  intro law
  have third := law ⟨⟨0⟩, ⟨.temporary, 4⟩, [⟨.temporary, 0⟩, ⟨.temporary, 3⟩]⟩ 1.0 torn
    (by simp [torn, decide])
  simp [torn, decide, decideAll, asked, Group.decide, Group.key, Group.record] at third

end Policy

end ScoredChaining
