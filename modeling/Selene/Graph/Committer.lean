import Selene.Base.Transition
import Mathlib.Data.List.Range
import Std.Data.ExtTreeMap.Lemmas

/-!
# The committer: one publisher for every sealed work

`committer.rs` publishes commits, compactions and vector-index rebuilds from one
bounded channel. Sealing (under the graph write lock) and submitting (after it is
released) are separate steps of the submitting thread, so works reach the channel
in any order; the committer thread holds early arrivals back in `reorder`.

The model is the transition system of all threads. An `Action` is one atomic step:

* a submitter seals, samples the poison flag, sends;
* the committer receives, runs a publication body, replies, moves on.

The body of a publication fails as the environment says (`Body`): the debug
assertion before the store, or anything after it.
-/

namespace Selene.Committer

open Std (ExtTreeMap)

variable {G R : Type}

def workChannelCapacity : ℕ := 1024

/-- `SealedCommit`, with the fields the publisher reads: its report stands for the
`CommitOutcome` assembled from the others. -/
structure SealedCommit (G R : Type) where
  sealSeq : ℕ
  nextSnapshot : G
  schemaChanged : Bool
  outcome : R

inductive Work (G R : Type) where
  | commit (sealed : SealedCommit G R)
  | compact (sealSeq : ℕ) (dense : G) (report : R)
  | vectorIndexRebuild (sealSeq : ℕ) (rebuilt : G) (report : R)

namespace Work

def sealSeq : Work G R → ℕ
  | commit sealed => sealed.sealSeq
  | compact sealSeq _ _ | vectorIndexRebuild sealSeq _ _ => sealSeq

/-- The snapshot the work stores. -/
def snapshot : Work G R → G
  | commit sealed => sealed.nextSnapshot
  | compact _ g _ | vectorIndexRebuild _ g _ => g

/-- What its submitter is told on success. -/
def report : Work G R → R
  | commit sealed => sealed.outcome
  | compact _ _ r | vectorIndexRebuild _ _ r => r

def schemaChanged : Work G R → Bool
  | commit sealed => sealed.schemaChanged
  | _ => false

end Work

/-- The error of `GraphError` that submitting can answer with. -/
inductive GraphError where
  | indeterminateOutcome (reason : String)

/-- `committer_dead()`. -/
def committerDead : GraphError :=
  .indeterminateOutcome ("memory graph publication failed; discard this runtime and inspect its " ++
    "last published snapshot")

/-- How the closure handed to `run_protected` ends: it completes, or it returns an
error or panics (`reason` describes either), before or after the snapshot store. -/
inductive Body where
  | completes
  | fails (stored : Bool) (reason : String)
deriving DecidableEq

def Body.stores : Body → Bool
  | completes => true
  | fails stored _ => stored

/-- `unwrap_protected`: a failure becomes the indeterminate error. The poison flag it
sets is part of the `reply` step. -/
def unwrapProtected (body : Body) (report : R) : Except GraphError R :=
  match body with
  | .completes => .ok report
  | .fails _ reason => .error (.indeterminateOutcome reason)

/-- Where the committer thread is in `run_committer`. -/
inductive Mode (G R : Type) where
  | receiving
  | draining
  | replying (work : Work G R) (body : Body)
  | advancing
  | exited

/-- Where a submitter is between its seal and its answer. -/
inductive Phase (R : Type) where
  | sealed
  | checked
  | waiting
  | done (answer : Except GraphError R)

def Mode.isExited : Mode G R → Bool
  | exited => true
  | _ => false

def Phase.isWaiting : Phase R → Bool
  | waiting => true
  | _ => false

structure Submitter (G R : Type) where
  work : Work G R
  phase : Phase R

/-- All threads and what they share. `published` and `failures` record the stores of
`snapshot` and the failed bodies, oldest first; no step reads them. Submitters stand
in the order of their seals: `next_seal_seq` is their number. -/
structure System (G R : Type) where
  submitters : List (Submitter G R)
  poisoned : Bool
  channel : List (Work G R)
  nextPublishSeq : ℕ
  reorder : ExtTreeMap ℕ (Work G R)
  mode : Mode G R
  snapshot : G
  schemaVersion : ℕ
  published : List (ℕ × G)
  failures : List ℕ

namespace System

def init (g : G) : System G R where
  submitters := []
  poisoned := false
  channel := []
  nextPublishSeq := 0
  reorder := ∅
  mode := .receiving
  snapshot := g
  schemaVersion := 0
  published := []
  failures := []

/-- `next_seal_seq`: the value the next `fetch_add` returns. -/
def nextSealSeq (s : System G R) : ℕ := s.submitters.length

def setPhase (s : System G R) (seq : ℕ) (phase : Phase R) : System G R :=
  { s with submitters := s.submitters.modify seq fun sub => { sub with phase := phase } }

/-- Dropping the receiver and the reorder buffer drops every queued reply sender:
each waiter's `recv` then fails. -/
def dropWaiters (s : System G R) : System G R :=
  { s with
    submitters := s.submitters.map fun sub =>
      if sub.phase.isWaiting then { sub with phase := .done (.error committerDead) } else sub
    channel := []
    reorder := ∅
    mode := .exited }

end System

inductive Action (G R : Type) where
  /-- The write lock is held and preparation has succeeded: take the next number. -/
  | allot (work : Work G R)
  /-- `enqueue`: load the poison flag. -/
  | check (seq : ℕ)
  /-- `sender.send`: blocks while the channel is full. -/
  | send (seq : ℕ)
  | receive
  /-- The inner `while let`: remove the next work and run its body, or stop. -/
  | drain (body : Body)
  | reply
  | advance

def Action.isAllot : Action G R → Bool
  | allot _ => true
  | _ => false

/-- One atomic step of one thread; `none` when the thread cannot take it. -/
def step (s : System G R) : Action G R → Option (System G R)
  | .allot work =>
    if work.sealSeq = s.nextSealSeq then
      some { s with submitters := s.submitters ++ [⟨work, .sealed⟩] }
    else none
  | .check seq =>
    match s.submitters[seq]? with
    | some ⟨_, .sealed⟩ =>
      some (s.setPhase seq (if s.poisoned then .done (.error committerDead) else .checked))
    | _ => none
  | .send seq =>
    match s.submitters[seq]? with
    | some ⟨work, .checked⟩ =>
      if s.mode.isExited then some (s.setPhase seq (.done (.error committerDead)))
      else if s.channel.length < workChannelCapacity then
        some { s.setPhase seq .waiting with channel := s.channel ++ [work] }
      else none
    | _ => none
  | .receive =>
    match s.mode, s.channel with
    | .receiving, work :: rest =>
      some { s with channel := rest, reorder := s.reorder.insert work.sealSeq work, mode := .draining }
    | _, _ => none
  | .drain body =>
    match s.mode with
    | .draining =>
      match s.reorder[s.nextPublishSeq]? with
      | none => some { s with mode := .receiving }
      | some work =>
        some { s with
          reorder := s.reorder.erase s.nextPublishSeq
          mode := .replying work body
          snapshot := if body.stores then work.snapshot else s.snapshot
          schemaVersion := if body.stores && work.schemaChanged then s.schemaVersion + 1
            else s.schemaVersion
          published := if body.stores then s.published ++ [(s.nextPublishSeq, work.snapshot)]
            else s.published
          failures := if body = .completes then s.failures else s.failures ++ [s.nextPublishSeq] }
    | _ => none
  | .reply =>
    match s.mode with
    | .replying work body =>
      some { s.setPhase work.sealSeq (.done (unwrapProtected body work.report)) with
        poisoned := s.poisoned || decide (body ≠ .completes)
        mode := .advancing }
    | _ => none
  | .advance =>
    match s.mode with
    | .advancing =>
      let s' := { s with nextPublishSeq := s.nextPublishSeq + 1 }
      some (if s.poisoned then s'.dropWaiters else { s' with mode := .draining })
    | _ => none

end Selene.Committer
