import Mathlib.Data.List.Induction

/-! Computations that may fail, one after the other and in loops over a list. -/

namespace Folds

variable {α β ε : Type} {step : β → α → Except ε β}

/-- Two computations in a row succeed when the first does and the second goes on from its result. -/
theorem bind_ok {first : Except ε α} {next : α → Except ε β} {last : β} :
    first >>= next = .ok last ↔ ∃ middle, first = .ok middle ∧ next middle = .ok last := by
  cases first <;> simp [Bind.bind, Except.bind]

/-- Renaming the errors of a computation changes nothing about its success. -/
theorem mapError_ok {δ : Type} {result : Except ε α} {rename : ε → δ} {value : α} :
    result.mapError rename = .ok value ↔ result = .ok value := by
  cases result <;> simp [Except.mapError]

/-- A loop over a list succeeds when its first step does and the others go on from there. -/
theorem foldlM_cons_ok {member : α} {rest : List α} {start last : β} :
    (member :: rest).foldlM step start = .ok last ↔
      ∃ middle, step start member = .ok middle ∧ rest.foldlM step middle = .ok last := by
  rw [List.foldlM_cons, bind_ok]

/-- A loop whose steps never fail runs to its end. -/
theorem foldlM_complete {members : List α}
    (each : ∀ member ∈ members, ∀ before, ∃ after, step before member = .ok after) (start : β) :
    ∃ last, members.foldlM step start = .ok last := by
  -- The step succeeds from wherever the members before it have led.
  induction members generalizing start with
  | nil => exact ⟨start, rfl⟩
  | cons member rest ih =>
    obtain ⟨middle, stepped⟩ := each member List.mem_cons_self start
    obtain ⟨last, done⟩ := ih (fun other listed => each other (List.mem_cons_of_mem _ listed)) middle
    exact ⟨last, foldlM_cons_ok.mpr ⟨middle, stepped, done⟩⟩

/-- What every enabled step keeps, a whole run keeps. -/
theorem foldlM_keeps {α β : Type} {step : β → α → Option β} {kept : β → Prop}
    (each : ∀ before member after, kept before → step before member = some after → kept after)
    {members : List α} {start last : β} (held : kept start)
    (ran : members.foldlM step start = some last) : kept last := by
  -- The induction is on the members, and each enabled step hands the fact on.
  induction members generalizing start with
  | nil => exact Option.some.inj ran ▸ held
  | cons member rest ih =>
    rw [List.foldlM_cons] at ran
    obtain ⟨middle, stepped, ran⟩ := Option.bind_eq_some_iff.mp ran
    exact ih (each start member middle held stepped) ran

/-- A run ends with its last step. -/
theorem foldlM_concat {α β : Type} {step : β → α → Option β} {members : List α} {member : α}
    {start last : β} : (members ++ [member]).foldlM step start = some last ↔
      ∃ middle, members.foldlM step start = some middle ∧ step middle member = some last := by
  simp [List.foldlM_append, Option.bind_eq_some_iff]

/-- A run may be stopped anywhere. -/
theorem foldlM_before {α β : Type} {step : β → α → Option β} {before rest : List α}
    {start last : β} (ran : (before ++ rest).foldlM step start = some last) :
    ∃ middle, before.foldlM step start = some middle ∧ rest.foldlM step middle = some last := by
  rw [List.foldlM_append] at ran
  exact Option.bind_eq_some_iff.mp ran

/-- What every allowed step keeps, a whole run of allowed steps keeps. -/
theorem foldlM_keeps_while {α β : Type} {step : β → α → Option β} {kept : β → Prop}
    {allowed : β → α → Prop}
    (each : ∀ before member after, kept before → allowed before member →
      step before member = some after → kept after)
    {members : List α} {start last : β} (held : kept start)
    (along : ∀ before member rest middle, members = before ++ member :: rest →
      before.foldlM step start = some middle → allowed middle member)
    (ran : members.foldlM step start = some last) : kept last := by
  -- The induction is from the end, so that the allowed steps stay those of one run.
  induction members using List.reverseRecOn generalizing last with
  | nil => exact Option.some.inj ran ▸ held
  | append_singleton members member ih =>
    obtain ⟨middle, earlier, stepped⟩ := foldlM_concat.mp ran
    have kept := ih (fun before other rest now split =>
      along before other (rest ++ [member]) now (by simp [split])) earlier
    exact each middle member last kept (along members member [] middle rfl earlier) stepped

/-- What every allowed step keeps, a whole run of allowed steps keeps, if no step can fail. -/
theorem foldl_keeps_while {α β : Type*} {step : β → α → β} {kept : β → Prop}
    {allowed : β → α → Prop}
    (each : ∀ before member, kept before → allowed before member → kept (step before member))
    {members : List α} {start : β} (held : kept start)
    (along : ∀ before member rest, members = before ++ member :: rest →
      allowed (before.foldl step start) member) : kept (members.foldl step start) := by
  -- The induction is from the end, so that the allowed steps stay those of one run.
  induction members using List.reverseRecOn with
  | nil => exact held
  | append_singleton members member ih =>
    have earlier := ih fun before other rest split =>
      along before other (rest ++ [member]) (by simp [split])
    rw [List.foldl_append]
    exact each _ member earlier (along members member [] rfl)

/-- What is looked up ends as every step that touches it leaves it, when they agree and one does. -/
theorem foldl_settles {α β γ : Type*} {step : β → α → β} {look : β → γ} {touch : α → Option γ}
    {members : List α} {start : β} {verdict : γ}
    (moves : ∀ member ∈ members, ∀ state,
      look (step state member) = (touch member).getD (look state))
    (agree : ∀ member ∈ members, ∀ value, touch member = some value → value = verdict)
    (reached : look start = verdict ∨ ∃ member ∈ members, touch member ≠ none) :
    look (members.foldl step start) = verdict := by
  -- The induction is on the steps: from the first one that touches it on, nothing changes.
  induction members generalizing start with
  | nil => simpa using reached
  | cons member rest ih =>
    obtain ⟨moved, moves⟩ := List.forall_mem_cons.mp moves
    obtain ⟨here, agree⟩ := List.forall_mem_cons.mp agree
    apply ih moves agree
    cases touched : touch member with
    | some value => exact .inl (by rw [moved, touched, Option.getD_some, here value touched])
    | none =>
      rcases reached with begun | ⟨other, inside, touching⟩
      · exact .inl (by rw [moved, touched, Option.getD_none, begun])
      · rcases List.mem_cons.mp inside with rfl | inside
        · exact absurd touched touching
        · exact .inr ⟨other, inside, touching⟩

end Folds
