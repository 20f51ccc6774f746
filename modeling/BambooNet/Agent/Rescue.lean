import BambooNet.Json.Dump
import BambooNet.Lib.Runs
import Mathlib.Data.Finset.Card
import Mathlib.Data.List.Infix

/-!
# Rescuing a rejected print job

A printer that rejects an unsigned `project_file` reports the command back. The agent removes the
error code, takes a new sequence id and publishes the command again, signed this time. It remembers
the `task_id` of what it has published, if the frame has one: a frame without it, or with a number
in its place, is published again on every delivery, and so is the rejection of that publish.

**Where every rejection names its job**, each job is published at most once, however its frames
arrive over LAN and cloud, and the exchange with a printer that rejects everything ends
(`rescue_run`).
-/

namespace BambooNet.Agent

open Json

/-! ## Reading a frame -/

def errSignatureRequired : ℤ := 84033543

/-- The `print` object of a frame that rejects a `project_file`. -/
def rejection (json : Bytes) : Option Object :=
  if ¬ ascii "\"project_file\"" <:+: json then none
  else if ¬ ascii "84033543" <:+: json then none
  else
    match parse json with
    | .error _ => none
    | .ok root =>
      match root.find (ascii "print") with
      | .object printObj =>
        match Entries.get? (ascii "command") printObj with
        | some (.string command) =>
          if command ≠ ascii "project_file" then none
          else
            match Entries.get? (ascii "err_code") printObj with
            | some err =>
              if err.isNumber && err.asInt 0 = errSignatureRequired then some printObj else none
            | none => none
        | _ => none
      | _ => none

/-- Empty when there is none, or when it is not a string. -/
def taskId (printObj : Object) : Bytes :=
  match Entries.get? (ascii "task_id") printObj with
  | some v => v.asString
  | none => []

/-! ## The command to publish -/

/-- `next_mqtt_seq_id` for the counter's value. -/
def mqttSeqId (v : UInt32) : ℕ := 20000 + v.toNat % 10000

/-- A number under `exp_numeric_sequence_id`, else a string. -/
def seqJsonValue (numeric : Bool) (seq : ℕ) : Value :=
  if numeric then .number (.int seq) else .string (decimal seq)

def rescueRequest (numeric : Bool) (v : UInt32) (printObj : Object) : Bytes :=
  let printObj := Entries.erase (ascii "err_code") printObj
  let printObj := Entries.insert (ascii "sequence_id") (seqJsonValue numeric (mqttSeqId v)) printObj
  (Value.object [(ascii "print", .object printObj)]).dump

/-! ## Frame after frame -/

variable {J : Type*}

/-- A report, over LAN or cloud, and what the agent reads besides it. The agent does not see the
job that a frame is about. -/
structure Frame (J : Type*) where
  job : J
  devId : Bytes
  json : Bytes
  /-- The value of the sequence counter. -/
  seq : UInt32 := 0
  numericSequenceId : Bool := false

structure Publish (J : Type*) where
  job : J
  devId : Bytes
  request : Bytes

/-- `rescue_cloud_project_file`: the tasks remembered, and what goes to `send_message`. A task is
looked up and added in one section of the mutex. -/
def rescueCloudProjectFile (rescuedTasks : Finset Bytes) (f : Frame J) :
    Finset Bytes × Option (Publish J) :=
  match rejection f.json with
  | none => (rescuedTasks, none)
  | some printObj =>
    let task := taskId printObj
    let publish : Publish J :=
      { job := f.job
        devId := f.devId
        request := rescueRequest f.numericSequenceId f.seq printObj }
    if task = [] then (rescuedTasks, some publish)
    else if task ∈ rescuedTasks then (rescuedTasks, none)
    else (insert task rescuedTasks, some publish)

structure State (J : Type*) where
  rescuedTasks : Finset Bytes := ∅
  /-- All that was published, in order. -/
  published : List (Publish J) := []

def deliver (s : State J) (f : Frame J) : State J where
  rescuedTasks := (rescueCloudProjectFile s.rescuedTasks f).1
  published := s.published ++ (rescueCloudProjectFile s.rescuedTasks f).2.toList

/-- The jobs that were published, each as often as it was. -/
def State.jobs (s : State J) : List J := s.published.map Publish.job

/-- A printer answers each publish with a frame, for `n` rounds or until nothing is published. -/
def exchange (answer : Publish J → Frame J) : ℕ → State J → Frame J → State J
  | 0, s, _ => s
  | n + 1, s, f =>
    match (rescueCloudProjectFile s.rescuedTasks f).2 with
    | none => deliver s f
    | some p => exchange answer n (deliver s f) (answer p)

/-! ## Rejections that name their job -/

variable {idOf : J → Bytes} {s : State J} {f : Frame J}

/-- If the frame is a rejection, it carries the id of its job as a string. -/
def Named (idOf : J → Bytes) (f : Frame J) : Prop :=
  ∀ printObj, rejection f.json = some printObj →
    taskId printObj = idOf f.job ∧ idOf f.job ≠ []

/-- What a frame that names its job can do. -/
theorem deliver_cases (hf : Named idOf f) :
    ((rescueCloudProjectFile s.rescuedTasks f).2 = none ∧ deliver s f = s) ∨
      idOf f.job ∉ s.rescuedTasks ∧
        ∃ p, (rescueCloudProjectFile s.rescuedTasks f).2 = some p ∧ p.job = f.job ∧
          deliver s f = ⟨insert (idOf f.job) s.rescuedTasks, s.published ++ [p]⟩ := by
  unfold deliver rescueCloudProjectFile
  cases hrej : rejection f.json with
  | none => exact Or.inl ⟨rfl, by simp⟩
  | some printObj =>
    obtain ⟨htask, hne⟩ := hf printObj hrej
    simp only [htask, hne, if_false]
    by_cases hmem : idOf f.job ∈ s.rescuedTasks
    · exact Or.inl (by simp [hmem])
    · exact Or.inr ⟨hmem, _, by rw [if_neg hmem], rfl, by rw [if_neg hmem]; rfl⟩

/-- Every published job is remembered, and none was published twice. -/
structure Inv (idOf : J → Bytes) (s : State J) : Prop where
  remembered : ∀ job ∈ s.jobs, idOf job ∈ s.rescuedTasks
  nodup : s.jobs.Nodup

theorem Inv.init : Inv idOf {} := ⟨by simp [State.jobs], List.nodup_nil⟩

theorem Inv.step (hs : Inv idOf s) (hf : Named idOf f) : Inv idOf (deliver s f) := by
  rcases deliver_cases (s := s) hf with ⟨-, heq⟩ | ⟨hnew, p, -, hp, heq⟩
  · rwa [heq]
  · have hjobs : (deliver s f).jobs = s.jobs ++ [f.job] := by
      simp [heq, State.jobs, hp]
    have hfresh : f.job ∉ s.jobs := fun h => hnew (hs.remembered _ h)
    refine ⟨fun job hjob => ?_, ?_⟩
    · rw [hjobs, List.mem_append, List.mem_singleton] at hjob
      rw [heq]
      rcases hjob with h | rfl
      · exact Finset.mem_insert_of_mem (hs.remembered _ h)
      · exact Finset.mem_insert_self _ _
    · rw [hjobs]
      exact List.nodup_append.2 ⟨hs.nodup, List.nodup_singleton _, by
        rintro a ha b hb rfl
        exact hfresh (List.mem_singleton.1 hb ▸ ha)⟩

/-- A job that was published once is not published again. -/
theorem Inv.deliver_eq (hs : Inv idOf s) (hf : Named idOf f) (hjob : f.job ∈ s.jobs) :
    deliver s f = s := by
  rcases deliver_cases (s := s) hf with ⟨-, heq⟩ | ⟨hnew, -⟩
  · exact heq
  · exact absurd (hs.remembered _ hjob) hnew

theorem Inv.along {fs : List (Frame J)} (hs : Inv idOf s)
    (hfs : Along deliver (fun _ f => Named idOf f) s fs) : Inv idOf (run deliver s fs) :=
  run_invariant (fun _ _ hs hf => hs.step hf) hs hfs

/-- A run publishes jobs of its frames only. -/
theorem jobs_run_subset {fs : List (Frame J)}
    (hfs : Along deliver (fun _ f => Named idOf f) s fs) :
    ∀ job ∈ (run deliver s fs).jobs, job ∈ s.jobs ∨ ∃ f ∈ fs, f.job = job := by
  induction fs generalizing s with
  | nil => exact fun job hjob => Or.inl hjob
  | cons f fs ih =>
    intro job hjob
    rcases ih hfs.2 job hjob with h | ⟨g, hg, rfl⟩
    · rcases deliver_cases (s := s) hfs.1 with ⟨-, heq⟩ | ⟨-, p, -, hp, heq⟩
      · exact Or.inl (heq ▸ h)
      · rw [heq] at h
        rcases List.mem_append.1 (show job ∈ s.jobs ++ [p.job] by simpa [State.jobs] using h) with
          h | h
        · exact Or.inl h
        · exact Or.inr ⟨f, List.mem_cons_self, by rw [List.mem_singleton.1 h, hp]⟩
    · exact Or.inr ⟨g, List.mem_cons_of_mem _ hg, rfl⟩

/-- An exchange publishes one more command at most: the answer to it is about the same job. -/
theorem Inv.exchange_length {answer : Publish J → Frame J} (hs : Inv idOf s) (hf : Named idOf f)
    (hanswer : ∀ p, Named idOf (answer p) ∧ (answer p).job = p.job) (n : ℕ) :
    (exchange answer n s f).published.length ≤ s.published.length + 1 := by
  cases n with
  | zero => exact Nat.le_succ _
  | succ n =>
    rcases deliver_cases (s := s) hf with ⟨hnone, heq⟩ | ⟨-, p, hsome, hp, heq⟩
    · simp only [exchange, hnone, heq]
      exact Nat.le_succ _
    · simp only [exchange, hsome]
      have hs' := hs.step hf
      have hlen : (deliver s f).published.length = s.published.length + 1 := by
        rw [heq]
        exact List.length_append
      cases n with
      | zero => exact hlen.le
      | succ n =>
        have hin : (answer p).job ∈ (deliver s f).jobs := by
          rw [(hanswer p).2, heq]
          simp [State.jobs]
        rcases deliver_cases (s := deliver s f) (hanswer p).1 with ⟨hnone, heq'⟩ | ⟨hnew, -⟩
        · simp only [exchange, hnone, heq']
          exact hlen.le
        · exact absurd (hs'.remembered _ hin) hnew

/-- **Rescue at most once.** In a run of frames each of which, if it is a rejection, carries the id
of its job as a string: no job is published twice; a frame about a published job, such as the
rejection of the publish, changes nothing; there are no more publishes than jobs; and the exchange
with a printer that answers every publish ends after one more. -/
theorem rescue_run (idOf : J → Bytes) (fs : List (Frame J))
    (hfs : Along deliver (fun _ f => Named idOf f) {} fs) :
    let s := run deliver {} fs
    s.jobs.Nodup ∧
    (∀ f, Named idOf f → f.job ∈ s.jobs → deliver s f = s) ∧
    (∀ jobs : Finset J, (∀ f ∈ fs, f.job ∈ jobs) → s.published.length ≤ jobs.card) ∧
    (∀ answer f, (∀ p, Named idOf (answer p) ∧ (answer p).job = p.job) → Named idOf f →
      ∀ n, (exchange answer n s f).published.length ≤ s.published.length + 1) := by
  have hs : Inv idOf (run deliver {} fs) := Inv.init.along hfs
  refine ⟨hs.nodup, fun f => hs.deliver_eq, fun jobs hjobs => ?_, fun answer f ha hf n =>
    hs.exchange_length hf ha n⟩
  classical
  have hlen : (run deliver {} fs).published.length = (run deliver {} fs).jobs.length := by
    rw [State.jobs, List.length_map]
  rw [hlen, ← List.toFinset_card_of_nodup hs.nodup]
  refine Finset.card_le_card fun job hjob => ?_
  rcases jobs_run_subset hfs job (List.mem_toFinset.1 hjob) with h | ⟨f, hf, rfl⟩
  · simp [State.jobs] at h
  · exact hjobs f hf

/-- A job that two frames reject, with an id. -/
def namedFrame : Frame Unit where
  job := ()
  devId := ascii "p"
  json := ascii
    "\x7b\"print\":\x7b\"command\":\"project_file\",\"err_code\":84033543,\"task_id\":\"7\"\x7d\x7d"

theorem named_namedFrame : Named (fun _ => ascii "7") namedFrame := by
  intro printObj hrej
  have htask : (rejection namedFrame.json).map taskId = some (ascii "7") := by decide +kernel
  rw [hrej] at htask
  exact ⟨Option.some.inj htask, by decide⟩

theorem rescue_run_namedFrame :
    (run deliver {} [namedFrame, namedFrame]).published.length ≤ 1 :=
  (rescue_run (fun _ => ascii "7") [namedFrame, namedFrame]
    ⟨named_namedFrame, named_namedFrame, trivial⟩).2.2.1 {()} fun _ _ => Finset.mem_singleton_self _

/-! ## Rejections without a job -/

/-- A rejection without an id that is a string. -/
def Unnamed (f : Frame J) : Prop := (rejection f.json).map taskId = some []

theorem Unnamed.publishes (hf : Unnamed f) (s : State J) :
    ∃ p, (rescueCloudProjectFile s.rescuedTasks f).2 = some p ∧ p.job = f.job ∧
      deliver s f = ⟨s.rescuedTasks, s.published ++ [p]⟩ := by
  obtain ⟨printObj, hrej, htask⟩ := Option.map_eq_some_iff.1 hf
  have heq : rescueCloudProjectFile s.rescuedTasks f = (s.rescuedTasks,
      some ⟨f.job, f.devId, rescueRequest f.numericSequenceId f.seq printObj⟩) := by
    simp only [rescueCloudProjectFile, hrej, htask, if_true]
  exact ⟨_, by rw [heq], rfl, by simp only [deliver, heq, Option.toList_some]⟩

/-- **An exchange about such rejections never ends.** -/
theorem exchange_unnamed {answer : Publish J → Frame J} (hanswer : ∀ p, Unnamed (answer p))
    (hf : Unnamed f) (n : ℕ) (s : State J) :
    (exchange answer n s f).published.length = s.published.length + n := by
  induction n generalizing s f with
  | zero => rfl
  | succ n ih =>
    obtain ⟨p, hsome, -, heq⟩ := hf.publishes s
    simp only [exchange, hsome]
    rw [ih (hanswer p), heq, List.length_append, List.length_singleton]
    omega

def bareFrame : Frame Unit where
  job := ()
  devId := ascii "p"
  json := ascii "\x7b\"print\":\x7b\"command\":\"project_file\",\"err_code\":84033543\x7d\x7d"

/-- The same job is published once for each delivery, and the exchange with a printer that rejects
it that way goes on for ever. -/
theorem bareFrame_republished :
    ¬ (run deliver {} [bareFrame, bareFrame]).jobs.Nodup ∧
      ∀ n, (exchange (fun _ => bareFrame) n {} bareFrame).published.length = n := by
  have hbare : Unnamed bareFrame := by
    unfold Unnamed
    decide +kernel
  refine ⟨fun h => ?_, fun n => ?_⟩
  · obtain ⟨p, -, hp, heq⟩ := hbare.publishes {}
    obtain ⟨q, -, hq, heq'⟩ := hbare.publishes (deliver {} bareFrame)
    rw [run_cons, run_cons, run_nil, heq', heq] at h
    simp [State.jobs, hp, hq] at h
  · rw [exchange_unnamed (fun _ => hbare) hbare, List.length_nil, Nat.zero_add]

end BambooNet.Agent
