import GitFullSend.Lib.Lists
import GitFullSend.Server.AuthGate
import GitFullSend.Server.Hook

/-! What a push changes on the server, and what the record of its connection says about that. -/

namespace GitFullSend

open Utf8 (Bytes ofText)
open Arrivals (Arrival)

/-- The refs of the server with their values. -/
abbrev Refs := Bytes → Option Bytes

/-- Give a ref its new value, of which one with zeros only deletes it. -/
def RefUpdate.apply (update : RefUpdate) (refs : Refs) : Refs :=
  Function.update refs update.ref
    (if update.new.all (· = 0x30) then none else some update.new)

/-- How far a run of `receive-pack` gets. -/
inductive Progress where
  /-- It ends before the hook has read anything. -/
  | idle
  /-- It ends while the hook has gone through so many updates. -/
  | hooked (seen : Nat)
  /-- The hook ends, and each update behind it takes effect or fails. -/
  | through (effects : List Bool)

/-- A run of `receive-pack` over the updates of a push. -/
structure ReceivePack where
  updates : List RefUpdate
  /-- The file that the handler has created for this run. -/
  file : AcceptedRefs
  fresh : ∀ contents, file.contents = some contents → contents = []
  progress : Progress
  stdin : Nat → Option Nat
  stdout : List Arrival
  stderr : Bytes
  status : ExitStatus

namespace ReceivePack

/-- Whether the hook has accepted the whole push. -/
def Accepts (run : ReceivePack) : Prop :=
  (∃ effects, run.progress = .through effects) ∧ (runHook run.file run.updates).status = 0

/-- The refs behind the run. -/
def after (run : ReceivePack) (refs : Refs) : Refs :=
  match run.progress with
  | .idle | .hooked _ => refs
  | .through effects =>
    -- A hook that does not exit zero has every update rejected.
    if (runHook run.file run.updates).status = 0 then
      (run.updates.zip effects).foldl
        (fun refs update => if update.2 then update.1.apply refs else refs) refs
    else refs

/-- What is in the hook's file behind the run. -/
def fileAfter (run : ReceivePack) : Option Bytes :=
  match run.progress with
  | .idle => run.file.contents
  | .hooked seen => recorded run.file (run.updates.take seen)
  | .through _ => recorded run.file run.updates

/-- The run, as the connection sees it. -/
def child (run : ReceivePack) : Child where
  stdin := run.stdin
  stdout := run.stdout
  stderr := run.stderr
  status := run.status
  acceptedRefs := run.fileAfter

/-- The value of a ref was changed by the run. -/
def Changes (run : ReceivePack) (refs : Refs) (ref : Bytes) : Prop :=
  run.after refs ref ≠ refs ref

end ReceivePack

/-- The text of the names, one on each line. -/
def nameLines (names : List String) : String :=
  names.foldr (fun name rest => name ++ "\n" ++ rest) ""

/-- The names of updates whose refs are text that does not end in white space. -/
structure Named (updates : List RefUpdate) (names : List String) : Prop where
  refs : updates.map RefUpdate.ref = names.map ofText
  dense : ∀ name ∈ names, Text.trim name = name

section Names

variable {updates : List RefUpdate} {names : List String}

/-- A name of a ref is printable, so it is neither empty nor has a line end within. -/
theorem printed_of_named (named : Named updates names) {name : String} (member : name ∈ names) :
    name ≠ "" ∧ '\n' ∉ name.toList ∧ '\r' ∉ name.toList := by
  -- Both ends of lines are control characters, which no ref has.
  have listed : ofText name ∈ updates.map RefUpdate.ref :=
    named.refs ▸ List.mem_map_of_mem member
  obtain ⟨update, -, same⟩ := List.mem_map.mp listed
  have field : Field (ofText name) := same ▸ update.ref_field
  refine ⟨?_, ?_, ?_⟩
  · intro empty
    subst empty
    exact field.1 (by decide)
  · intro feed
    exact absurd (field.2 _ (Text.mem_of_ascii feed (by decide))) (by decide)
  · intro returned
    exact absurd (field.2 _ (Text.mem_of_ascii returned (by decide))) (by decide)

/-- The text of the names has the bytes of each name in front of a line feed. -/
theorem ofText_nameLines (names : List String) :
    ofText (nameLines names) = names.flatMap fun name => ofText name ++ [0x0A] := by
  -- The induction is on the names.
  have feed : ofText "\n" = [0x0A] := by decide
  induction names with
  | nil => rfl
  | cons name rest ih =>
    have first : nameLines (name :: rest) = name ++ "\n" ++ nameLines rest := rfl
    rw [first, Text.ofText_append, Text.ofText_append, feed, ih, List.flatMap_cons]

/-- The hook's file is the text of the names. -/
theorem refLines_named (named : Named updates names) :
    refLines updates = ofText (nameLines names) := by
  have lines : refLines updates = (updates.map RefUpdate.ref).flatMap (· ++ [0x0A]) := by
    rw [refLines, List.flatMap_map]
  rw [lines, named.refs, List.flatMap_map, ofText_nameLines]

/-- The lines of the names are the names. -/
theorem lines_names {names : List String}
    (printed : ∀ name ∈ names, '\n' ∉ name.toList ∧ '\r' ∉ name.toList) :
    Text.lines (nameLines names) = names := by
  -- The induction is on the names, and the first line is cut off whole.
  induction names with
  | nil => rfl
  | cons name rest ih =>
    obtain ⟨⟨whole, plain⟩, others⟩ := List.forall_mem_cons.mp printed
    have here := Text.lines_append whole plain (nameLines rest)
    rw [ih others] at here
    exact here

/-- The names that are read from the hook's file are those of the updates, once each. -/
theorem readAcceptedRefs_named (named : Named updates names) :
    readAcceptedRefs (refLines updates) = names.foldl Lists.once [] := by
  -- Trimming leaves every name as it is, and none of them is empty.
  have printed : ∀ name ∈ names, name ≠ "" ∧ '\n' ∉ name.toList ∧ '\r' ∉ name.toList :=
    fun name member => printed_of_named named member
  have each : ∀ refs : List String, ∀ name ∈ names,
      (let line := Text.trim name
       if line = "" ∨ line ∈ refs then refs else refs ++ [line]) = Lists.once refs name := by
    intro refs name member
    simp only [named.dense name member, (printed name member).1, false_or]
    rfl
  have lines := lines_names fun name member => (printed name member).2
  rw [refLines_named named, readAcceptedRefs, Text.ofBytes_ofText]
  simp only [lines]
  exact List.foldl_ext _ _ _ each

end Names

/-- Applying updates leaves every ref alone that none of them is about. -/
theorem mem_of_applied {updates : List (RefUpdate × Bool)} {refs : Refs} {ref : Bytes}
    (changed : updates.foldl
      (fun refs update => if update.2 then update.1.apply refs else refs) refs ref ≠ refs ref) :
    ∃ update ∈ updates, update.1.ref = ref := by
  -- The induction is on the updates; one about another ref leaves this one alone.
  induction updates generalizing refs with
  | nil => exact absurd rfl changed
  | cons update rest ih =>
    by_cases same : update.1.ref = ref
    · exact ⟨update, List.mem_cons_self, same⟩
    · have kept : (if update.2 then update.1.apply refs else refs) ref = refs ref := by
        split
        · exact Function.update_of_ne (Ne.symm same) _ _
        · rfl
      rw [List.foldl_cons, ← kept] at changed
      obtain ⟨other, member, about⟩ := ih changed
      exact ⟨other, List.mem_cons_of_mem update member, about⟩

/-- Only an accepted push changes refs, and only those it is about. -/
theorem accepts_of_changes {run : ReceivePack} {refs : Refs} {ref : Bytes}
    (changes : run.Changes refs ref) :
    run.Accepts ∧ ∃ update ∈ run.updates, update.ref = ref := by
  -- Refs change only behind the hook, and only if it accepts.
  unfold ReceivePack.Changes ReceivePack.after at changes
  cases through : run.progress with
  | idle => simp [through] at changes
  | hooked seen => simp [through] at changes
  | through effects =>
    by_cases accepted : (runHook run.file run.updates).status = 0
    · simp only [through, accepted, if_true] at changes
      obtain ⟨update, member, same⟩ := mem_of_applied changes
      exact ⟨⟨⟨effects, through⟩, accepted⟩, update.1, (List.of_mem_zip member).1, same⟩
    · simp [through, accepted] at changes

/-- What is read from the file of an accepted push are the names of all its updates. -/
theorem recorded_of_accepts {run : ReceivePack} (accepts : run.Accepts) {names : List String}
    (named : Named run.updates names) :
    (run.fileAfter.map readAcceptedRefs).getD [] = names.foldl Lists.once [] := by
  -- Without a file that can be written only the push of nothing is accepted.
  obtain ⟨⟨effects, through⟩, accepted⟩ := accepts
  have inside := inside_of_accepted accepted
  have file : run.fileAfter = recorded run.file run.updates := by
    rw [ReceivePack.fileAfter, through]
  rw [file]
  cases writable : run.file.contents with
  | none =>
    have nothing : run.updates = [] := by
      by_contra some
      have declined := runHook_unrecorded inside writable
      rw [if_neg some, accepted] at declined
      cases declined
    have unnamed : names = [] := by
      have refs := named.refs
      rw [nothing] at refs
      exact List.map_eq_nil_iff.mp refs.symm
    have empty : recorded run.file [] = none := (start_ready run.file).contents.trans writable
    rw [nothing, unnamed, empty]
    rfl
  | some contents =>
    have empty := run.fresh contents writable
    obtain ⟨-, written⟩ := runHook_recorded inside writable
    rw [written, empty, List.nil_append, Option.map_some, Option.getD_some]
    exact readAcceptedRefs_named named

/-- A connection counts as an update when refs were accepted, the child succeeded and the hook did
not complain. -/
theorem classify_updated {status : ExitStatus} {inbound : WireCounts} {refs : List String}
    {stderr : String} :
    (Outcome.classify status inbound refs stderr).asStr = Outcome.updated.asStr ↔
      refs ≠ [] ∧ status = .code 0 ∧ Text.contains stderr hookRefusalMarker = false := by
  -- The marker is looked for first, then the exit status, then the refs.
  unfold Outcome.classify
  cases declined : Text.contains stderr hookRefusalMarker with
  | true => simp [Outcome.asStr]
  | false =>
    by_cases success : status = .code 0
    · have yes : ExitStatus.success (.code 0) = true := rfl
      subst success
      cases refs with
      | nil =>
        cases pkts : inbound.preFlushPkts with
        | zero => simp [yes, Outcome.asStr]
        | succ pkts => simp [yes, Outcome.asStr]
      | cons first rest => simp [yes]
    · have no : status.success = false := decide_eq_false success
      by_cases nothing : inbound.preFlushPkts = 0
      · simp [no, nothing, success, Outcome.asStr]
      · simp [no, nothing, success, Outcome.asStr]

/-- What a record says about the refs that a run of `receive-pack` changes. -/
structure Tells (run : ReceivePack) (refs : Refs) (names : List String) (record : ReceiveRecord) :
    Prop where
  /-- Every ref that was changed is recorded. -/
  complete : ∀ ref, run.Changes refs ref → ∃ name ∈ record.refsUpdated, ofText name = ref
  /-- The refs of an accepted push are recorded once each, in order. -/
  accepted : run.Accepts → record.refsUpdated.Nodup ∧ record.refsUpdated.Sublist names ∧
    ∀ name, name ∈ record.refsUpdated ↔ name ∈ names
  /-- They are the changed ones exactly where each of the updates has changed its ref. -/
  exact : run.Accepts →
    ((∀ name, name ∈ record.refsUpdated ↔ run.Changes refs (ofText name)) ↔
      ∀ update ∈ run.updates, run.Changes refs update.ref)
  /-- An accepted push counts as an update unless it was empty or its run failed. -/
  outcome : run.Accepts →
    (record.outcome = Outcome.updated.asStr ↔ run.updates ≠ [] ∧ run.status = .code 0 ∧
      Text.contains (Text.trim ((Text.ofBytes run.stderr).getD "")) hookRefusalMarker = false)
  /-- A push that is not accepted changes nothing. -/
  declined : ¬ run.Accepts → ∀ ref, ¬ run.Changes refs ref
  /-- If the hook wrote nothing down either, no ref is recorded and it does not count as an update. -/
  unwritten : ¬ run.Accepts → run.fileAfter.getD [] = [] →
    record.refsUpdated = [] ∧ record.outcome ≠ Outcome.updated.asStr

/-- The record of a run is made from its status, its errors and the hook's file. -/
theorem receive_record (consumed : Bytes) (sock : Socket) (child : Child) :
    ∃ inbound outbound,
      let refsUpdated := (child.acceptedRefs.map readAcceptedRefs).getD []
      let stderr := Text.trim ((Text.ofBytes child.stderr).getD "")
      (receive consumed sock (some child)).record = some
        (.new (Outcome.classify child.status inbound refsUpdated stderr).asStr child.status
          inbound outbound refsUpdated) :=
  ⟨_, _, rfl⟩

/-- An accepted push is recorded with all its names. -/
theorem refsUpdated_of_accepts {run : ReceivePack} (accepts : run.Accepts) {names : List String}
    (named : Named run.updates names) (consumed : Bytes) (sock : Socket) :
    (receive consumed sock (some run.child)).record.map (·.refsUpdated) =
      some (names.foldl Lists.once []) := by
  obtain ⟨inbound, outbound, recorded⟩ := receive_record consumed sock run.child
  have file : run.child.acceptedRefs = run.fileAfter := rfl
  rw [recorded, Option.map_some, ReceiveRecord.new, file, recorded_of_accepts accepts named]

/-- The record of a run, whatever the connection it came through. -/
theorem receive_tells {run : ReceivePack} {names : List String} (named : Named run.updates names)
    (refs : Refs) (consumed : Bytes) (sock : Socket) :
    ∃ record, (receive consumed sock (some run.child)).record = some record ∧
      Tells run refs names record := by
  -- An accepted push is recorded by all its names, and only such a push changes anything.
  obtain ⟨inbound, outbound, recorded⟩ := receive_record consumed sock run.child
  refine ⟨_, recorded, ?_⟩
  have file : run.child.acceptedRefs = run.fileAfter := rfl
  have status : run.child.status = run.status := rfl
  have stderr : run.child.stderr = run.stderr := rfl
  rw [file, status, stderr]
  generalize listing : (run.fileAfter.map readAcceptedRefs).getD [] = listed
  have same (accepts : run.Accepts) : listed = names.foldl Lists.once [] :=
    listing ▸ recorded_of_accepts accepts named
  have within (accepts : run.Accepts) (name : String) : name ∈ listed ↔ name ∈ names := by
    rw [same accepts, Lists.mem_foldl_once]
    simp
  have nameOf {update : RefUpdate} (member : update ∈ run.updates) :
      ∃ name ∈ names, ofText name = update.ref := by
    have ref : update.ref ∈ names.map ofText := named.refs ▸ List.mem_map_of_mem member
    exact List.mem_map.mp ref
  have updateOf {name : String} (member : name ∈ names) :
      ∃ update ∈ run.updates, update.ref = ofText name := by
    have ref : ofText name ∈ run.updates.map RefUpdate.ref :=
      named.refs ▸ List.mem_map_of_mem member
    exact List.mem_map.mp ref
  have complete (ref : Bytes) (changes : run.Changes refs ref) :
      ∃ name ∈ listed, ofText name = ref := by
    obtain ⟨accepts, update, member, rfl⟩ := accepts_of_changes changes
    obtain ⟨name, known, same⟩ := nameOf member
    exact ⟨name, (within accepts name).mpr known, same⟩
  refine ⟨complete, ?_, ?_, ?_, ?_, ?_⟩
  · intro accepts
    refine ⟨?_, ?_, within accepts⟩
    · exact same accepts ▸ Lists.nodup_foldl_once List.nodup_nil names
    · exact same accepts ▸ Lists.foldl_once_sublist [] names
  · intro accepts
    constructor
    · intro exact update member
      obtain ⟨name, known, same⟩ := nameOf member
      exact same ▸ (exact name).mp ((within accepts name).mpr known)
    · intro every name
      constructor
      · intro recorded
        obtain ⟨update, member, same⟩ := updateOf ((within accepts name).mp recorded)
        exact same ▸ every update member
      · intro changes
        obtain ⟨other, recorded, same⟩ := complete _ changes
        exact Text.ofText_injective same ▸ recorded
  · intro accepts
    have nothing : listed = [] ↔ run.updates = [] := by
      have none : listed = [] ↔ names = [] := by
        simp only [List.eq_nil_iff_forall_not_mem, within accepts]
      rw [none, ← List.map_eq_nil_iff (f := ofText), ← named.refs, List.map_eq_nil_iff]
    rw [ReceiveRecord.new, classify_updated, ne_eq, nothing]
  · intro refused ref changes
    exact refused (accepts_of_changes changes).1
  · intro refused unwritten
    -- A file without a line and a file that is not there are read alike.
    have unread : readAcceptedRefs [] = [] := by decide
    have nothing : listed = [] := by
      rw [← listing]
      cases file : run.fileAfter with
      | none => rfl
      | some contents =>
        rw [file, Option.getD_some] at unwritten
        rw [Option.map_some, Option.getD_some, unwritten, unread]
    rw [ReceiveRecord.new, ne_eq, classify_updated, nothing]
    exact ⟨rfl, fun updated => updated.1 rfl⟩

end GitFullSend
