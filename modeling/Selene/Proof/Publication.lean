import Selene.Graph.Committer
import Mathlib.Algebra.GroupWithZero.Nat

/-!
# Ordered publication

Every interleaving of submitters and committer publishes a prefix of the seal order.
`Inv` says where each work is: a waiting submitter's work is in the channel, in the
reorder buffer or in the committer's hands, and everything below the publish counter
is answered. `Stored` says what the stores so far are, per mode of the committer.
-/

namespace Selene.Committer

open Transition List Option Selene.Committer.System Committer Submitter Std

variable {G R : Type} {s s' : System G R} {a : Action G R}

/-- The work whose body has run and whose submitter has not been answered. -/
def Mode.inHand : Mode G R → Option (Work G R)
  | replying work _ => some work
  | _ => none

namespace System

variable (s : System G R)

/-- Submitters below this index have been answered. -/
def bound : ℕ :=
  match s.mode with
  | .advancing => s.nextPublishSeq + 1
  | _ => s.nextPublishSeq

/-- The stores of the first `m` works of the seal order. -/
def storesUpTo (subs : List (Submitter G R)) (m : ℕ) : List (ℕ × G) :=
  (subs.take m).map fun sub => (sub.work.sealSeq, sub.work.snapshot)

@[simp] theorem getElem?_setPhase (i j : ℕ) (p : Phase R) : (s.setPhase i p).submitters[j]? =
      if i = j then (s.submitters[j]?).map fun sub => ⟨sub.work, p⟩ else s.submitters[j]? := by
  simp only [setPhase, getElem?_modify]
  split <;> simp

theorem getElem?_dropWaiters (j : ℕ) (sub : Submitter G R) :
    s.dropWaiters.submitters[j]? = some sub ↔ s.submitters[j]? = some sub ∧ sub.phase ≠ .waiting ∨
      s.submitters[j]? = some ⟨sub.work, .waiting⟩ ∧ sub.phase = .done (.error committerDead) := by
  obtain ⟨w, p⟩ := sub
  simp only [dropWaiters, getElem?_map]
  rcases s.submitters[j]? with _ | ⟨w', _ | _ | _ | r⟩ <;> simp [Phase.isWaiting] <;> grind

@[simp] theorem setPhase_rest (i : ℕ) (p : Phase R) :
    (s.setPhase i p).channel = s.channel ∧ (s.setPhase i p).reorder = s.reorder ∧
      (s.setPhase i p).mode = s.mode ∧ (s.setPhase i p).nextPublishSeq = s.nextPublishSeq ∧
      (s.setPhase i p).poisoned = s.poisoned :=
  ⟨rfl, rfl, rfl, rfl, rfl⟩

@[simp] theorem dropWaiters_rest :
    s.dropWaiters.channel = [] ∧ s.dropWaiters.reorder = ∅ ∧ s.dropWaiters.mode = .exited ∧
      s.dropWaiters.nextPublishSeq = s.nextPublishSeq ∧ s.dropWaiters.poisoned = s.poisoned :=
  ⟨rfl, rfl, rfl, rfl, rfl⟩

theorem storesUpTo_congr {l l' : List (Submitter G R)}
    (h : l'.map work = l.map work) (m : ℕ) : storesUpTo l' m = storesUpTo l m := by
  have h' := congrArg (fun l => (l.take m).map fun w : Work G R => (w.sealSeq, w.snapshot)) h
  simpa [storesUpTo, ← List.map_take, List.map_map, Function.comp_def] using h'

theorem map_work_setPhase (i : ℕ) (p : Phase R) :
    (s.setPhase i p).submitters.map work = s.submitters.map work := by
  apply ext_getElem?
  intro j
  simp only [getElem?_map, getElem?_setPhase]
  split <;> simp [Function.comp_def]

theorem map_work_dropWaiters :
    s.dropWaiters.submitters.map work = s.submitters.map work := by
  simp only [dropWaiters, List.map_map]
  refine List.map_congr_left fun sub _ => ?_
  simp only [Function.comp_apply]
  split <;> rfl

end System

/-- Where every work is. -/
structure Inv (s : System G R) : Prop where
  seqOf : ∀ {i : ℕ} {sub : Submitter G R}, s.submitters[i]? = some sub → sub.work.sealSeq = i
  channel : ∀ w ∈ s.channel, s.submitters[w.sealSeq]? = some ⟨w, .waiting⟩
  nodup : (s.channel.map Work.sealSeq).Nodup
  reorder : ∀ {k : ℕ} {w : Work G R}, s.reorder[k]? = some w →
    s.bound ≤ k ∧ s.submitters[k]? = some ⟨w, .waiting⟩ ∧ k ∉ s.channel.map Work.sealSeq
  hand : ∀ {w : Work G R}, s.mode.inHand = some w →
    s.submitters[s.nextPublishSeq]? = some ⟨w, .waiting⟩ ∧ s.reorder[s.nextPublishSeq]? = none ∧
      s.nextPublishSeq ∉ s.channel.map Work.sealSeq
  located : ∀ {i : ℕ} {w : Work G R}, s.submitters[i]? = some ⟨w, .waiting⟩ →
    w ∈ s.channel ∨ s.reorder[i]? = some w ∨
      i = s.nextPublishSeq ∧ s.mode.inHand = some w
  answered : ∀ {i : ℕ}, i < s.bound → ∃ w r, s.submitters[i]? = some ⟨w, .done r⟩
  fresh : s.poisoned = false → ∀ {i : ℕ} {w : Work G R} {r : Except GraphError R}, s.submitters[i]? = some ⟨w, .done r⟩ → i < s.bound
  answer : ∀ {i : ℕ} {w : Work G R} {r : Except GraphError R}, s.submitters[i]? = some ⟨w, .done r⟩ →
    r = .ok w.report ∨ ∃ reason, r = .error (.indeterminateOutcome reason)
  parked : s.mode = .receiving → s.reorder[s.nextPublishSeq]? = none
  exited : s.mode = .exited → s.channel = [] ∧ s.reorder = ∅

theorem inv_init (g : G) : Inv (init g : System G R) := by
  constructor <;> simp [init, bound, Mode.inHand]

section

variable (hs : Inv s)
include hs

-- Nobody starts or ends to wait; answers that do not come from the thread come after the poison. -/
theorem Inv.submitters {subs : List (Submitter G R)}
    (hseq : ∀ {i : ℕ} {sub : Submitter G R}, subs[i]? = some sub → sub.work.sealSeq = i)
    (hwait : ∀ (i : ℕ) (w : Work G R),
      subs[i]? = some ⟨w, .waiting⟩ ↔ s.submitters[i]? = some ⟨w, .waiting⟩)
    (hdone : ∀ (i : ℕ) (w : Work G R) (r : Except GraphError R),
      s.submitters[i]? = some ⟨w, .done r⟩ → subs[i]? = some ⟨w, .done r⟩)
    (hnew : ∀ (i : ℕ) (w : Work G R) (r : Except GraphError R), subs[i]? = some ⟨w, .done r⟩ →
      s.submitters[i]? = some ⟨w, .done r⟩ ∨ s.poisoned = true ∧ r = .error committerDead) :
    Inv { s with submitters := subs } where
  seqOf := hseq
  channel w hw := (hwait _ _).2 (hs.channel w hw)
  nodup := hs.nodup
  reorder h := (hs.reorder h).imp_right (And.imp_left (hwait _ _).2)
  hand h := (hs.hand h).imp_left (hwait _ _).2
  located h := hs.located ((hwait _ _).1 h)
  answered hi := by
    obtain ⟨w, r, h⟩ := hs.answered hi
    exact ⟨w, r, hdone _ _ _ h⟩
  fresh hp _ _ _ h := by
    rcases hnew _ _ _ h with h | ⟨hpoison, -⟩
    · exact hs.fresh hp h
    · rw [hp] at hpoison
      cases hpoison
  answer h := by
    rcases hnew _ _ _ h with h | ⟨-, rfl⟩
    · exact hs.answer h
    · exact .inr ⟨_, rfl⟩
  parked := hs.parked
  exited := hs.exited

theorem Inv.allot (work : Work G R) (hseq : work.sealSeq = s.nextSealSeq) :
    Inv { s with submitters := s.submitters ++ [⟨work, .sealed⟩] } := by
  have hlast : s.submitters[s.submitters.length]? = none := getElem?_eq_none le_rfl
  have hget : ∀ j, (s.submitters ++ [⟨work, .sealed⟩])[j]? =
      if j = s.submitters.length then some ⟨work, .sealed⟩ else s.submitters[j]? := by
    intro j
    rw [getElem?_append]
    grind
  refine hs.submitters (fun {i sub} h => ?_) (fun i w => ?_) (fun i w r h => ?_) fun i w r h => ?_
  · rw [hget] at h
    split_ifs at h with hi
    · cases h
      exact hseq.trans hi.symm
    · exact hs.seqOf h
  all_goals
    rw [hget] at *
    by_cases hi : i = s.submitters.length <;> simp_all

/-- A submitter that is not waiting may move on: nothing of the committer's is about it. -/
theorem Inv.setPhase_of_idle {seq : ℕ} {w : Work G R} {p q : Phase R}
    (hw : s.submitters[seq]? = some ⟨w, q⟩) (hq : q = .sealed ∨ q = .checked)
    (hp : p = .checked ∨ p = .done (.error committerDead) ∧ s.poisoned = true) :
    Inv (s.setPhase seq p) := by
  have hget := s.getElem?_setPhase seq (p := p)
  have hseq : w.sealSeq = seq := hs.seqOf hw
  rw [setPhase] at hget ⊢
  refine hs.submitters (fun {i sub} h => ?_) (fun i w' => ?_) (fun i w' r h => ?_) fun i w' r h => ?_
  · rw [hget] at h
    split_ifs at h with hi
    · rw [← hi, hw] at h
      cases h
      exact hseq.trans hi
    · exact hs.seqOf h
  all_goals
    rw [hget] at *
    by_cases hi : seq = i
    · subst hi
      rcases hq with rfl | rfl <;> rcases hp with rfl | ⟨rfl, hp⟩ <;> simp_all
    · simp_all

theorem Inv.send {seq : ℕ} {w : Work G R} (hw : s.submitters[seq]? = some ⟨w, .checked⟩)
    (hm : s.mode.isExited = false) :
    Inv { s.setPhase seq .waiting with channel := s.channel ++ [w] } := by
  have hseq : w.sealSeq = seq := hs.seqOf hw
  -- whoever waits or is answered is another submitter
  have hother : ∀ {i : ℕ} {w' : Work G R} {p : Phase R}, s.submitters[i]? = some ⟨w', p⟩ →
      p ≠ .checked → seq ≠ i := by
    rintro i w' p h hp rfl
    cases hw.symm.trans h
    exact hp rfl
  have hchannel : seq ∉ s.channel.map Work.sealSeq := by
    intro hmem
    obtain ⟨w', hw', rfl⟩ := mem_map.1 hmem
    exact hother (hs.channel w' hw') nofun rfl
  have hnodup : ((s.channel ++ [w]).map Work.sealSeq).Nodup := by
    simpa [hseq, nodup_append, hs.nodup] using hchannel
  have hexited : s.mode ≠ .exited := by
    intro he
    rw [he] at hm
    cases hm
  have hanswer := @hs.answer
  cases hs
  constructor
  case nodup => exact hnodup
  case answer =>
    intro i w' r h
    rw [getElem?_setPhase] at h
    split_ifs at h with hi
    · rw [← hi, hw] at h
      cases h
    · exact hanswer h
  all_goals
    simp only [getElem?_setPhase, System.setPhase_rest, bound, map_append, Mode.isExited] at *
    grind

theorem Inv.receive {w : Work G R} {rest : List (Work G R)} (hm : s.mode = .receiving)
    (hc : s.channel = w :: rest) :
    Inv { s with channel := rest, reorder := s.reorder.insert w.sealSeq w, mode := .draining } := by
  have hwait := hs.channel w (by simp [hc])
  have hnodup := hs.nodup
  rw [hc, map_cons, nodup_cons] at hnodup
  -- the work is not answered, so its number is still to come
  have hle : s.nextPublishSeq ≤ w.sealSeq := by
    by_contra hlt
    obtain ⟨w', r, h⟩ := hs.answered (i := w.sealSeq) (by simp only [bound, hm]; omega)
    cases hwait.symm.trans h
  -- what waits under the number of this work is this work
  have hself : ∀ {w'}, s.submitters[w.sealSeq]? = some ⟨w', .waiting⟩ → w' = w := by
    intro w' h
    cases hwait.symm.trans h
    rfl
  have hanswer := @hs.answer
  cases hs
  constructor
  case answer => exact hanswer
  all_goals
    simp only [bound, Mode.inHand, hc, hm, map_cons, ExtTreeMap.getElem?_insert] at *
    grind

/-- Between two works the thread may change its mode. -/
theorem Inv.between (next : ℕ) (mode : Mode G R) (hb : System.bound { s with nextPublishSeq := next, mode } = s.bound)
    (hh : s.mode.inHand = none) (hh' : mode.inHand = none)
    (hparked : mode = .receiving → s.reorder[next]? = none) (hexited : mode ≠ .exited) :
    Inv { s with nextPublishSeq := next, mode } where
  seqOf := hs.seqOf
  channel := hs.channel
  nodup := hs.nodup
  reorder h := hb ▸ hs.reorder h
  hand h := by
    rw [hh'] at h
    cases h
  located h := by
    rcases hs.located h with h | h | ⟨-, h⟩
    · exact .inl h
    · exact .inr (.inl h)
    · rw [hh] at h
      cases h
  answered hi := hs.answered (hb ▸ hi)
  fresh hp _ _ _ h := hb ▸ hs.fresh hp h
  answer := hs.answer
  parked := hparked
  exited h := absurd h hexited

theorem Inv.drain {w : Work G R} {body : Body} (hm : s.mode = .draining)
    (hw : s.reorder[s.nextPublishSeq]? = some w) (t : System G R)
    (ht : t.submitters = s.submitters ∧ t.channel = s.channel ∧ t.poisoned = s.poisoned ∧
      t.nextPublishSeq = s.nextPublishSeq ∧ t.reorder = s.reorder.erase s.nextPublishSeq ∧
      t.mode = .replying w body) : Inv t := by
  -- the work leaves the buffer for the hand, under the next number
  obtain ⟨-, hwait, hnot⟩ := hs.reorder hw
  have hanswer := @hs.answer
  cases hs
  constructor
  case answer => rwa [ht.1]
  all_goals
    simp only [bound, Mode.inHand, hm, ht, ExtTreeMap.getElem?_erase] at *
    grind

theorem Inv.reply {w : Work G R} {body : Body} (hm : s.mode = .replying w body) :
    Inv { s.setPhase w.sealSeq (.done (unwrapProtected body w.report)) with
      poisoned := s.poisoned || decide (body ≠ .completes), mode := .advancing } := by
  obtain ⟨hwait, hnone, hnot⟩ := hs.hand (w := w) (by rw [hm]; rfl)
  have hseq : w.sealSeq = s.nextPublishSeq := hs.seqOf hwait
  have hun : unwrapProtected body w.report = .ok w.report ∨
      ∃ reason, unwrapProtected body w.report = .error (.indeterminateOutcome reason) := by
    cases body <;> simp [unwrapProtected]
  generalize unwrapProtected body w.report = answer at hun
  rw [hseq]
  have hanswer := @hs.answer
  have hdone := @hs.answered
  cases hs
  constructor
  case answered =>
    intro i hi
    simp only [getElem?_setPhase]
    split_ifs with heq
    · rw [← heq, hwait]
      exact ⟨w, answer, rfl⟩
    · refine hdone ?_
      simp only [bound, hm, System.setPhase_rest] at hi ⊢
      omega
  case answer =>
    intro i w' r h
    rw [getElem?_setPhase] at h
    split_ifs at h with heq
    · rw [← heq, hwait] at h
      cases h
      exact hun
    · exact hanswer h
  all_goals
    simp only [bound, Mode.inHand, hm, getElem?_setPhase, System.setPhase_rest] at *
    grind

theorem Inv.dropWaiters (hm : s.mode = .advancing) (hp : s.poisoned = true) :
    Inv ({ s with nextPublishSeq := s.nextPublishSeq + 1 } : System G R).dropWaiters := by
  have hbound : s.bound = s.nextPublishSeq + 1 := by rw [bound, hm]
  have hget : ∀ i sub, ({ s with nextPublishSeq := s.nextPublishSeq + 1 } :
      System G R).dropWaiters.submitters[i]? = some sub ↔ _ := getElem?_dropWaiters _
  refine ⟨?_, nofun, .nil, ?_, nofun, ?_, ?_, ?_, ?_, nofun, fun _ => ⟨rfl, rfl⟩⟩
  · intro i sub h
    rcases (hget i sub).1 h with ⟨h, -⟩ | ⟨h, -⟩
    · exact hs.seqOf h
    · exact @Inv.seqOf _ _ _ hs _ ⟨sub.work, .waiting⟩ h
  · intro k w h
    simp at h
  · intro i w h
    rcases (hget i _).1 h with ⟨-, h⟩ | ⟨-, h⟩
    · exact absurd rfl h
    · cases h
  · intro i hi
    obtain ⟨w, r, h⟩ := hs.answered (i := i) (hbound ▸ hi)
    exact ⟨w, r, (hget i _).2 (.inl ⟨h, nofun⟩)⟩
  · intro hfalse
    cases hp.symm.trans hfalse
  · intro i w r h
    rcases (hget i _).1 h with ⟨h, -⟩ | ⟨-, h⟩
    · exact hs.answer h
    · cases h
      exact .inr ⟨_, rfl⟩

end

/-- What the stores and failures so far are, by where the committer thread is. A failure
is the last body that ran, and the thread exits before it runs another. -/
def Stored (s : System G R) : Prop :=
  match s.mode with
  | .receiving | .draining =>
    s.poisoned = false ∧ s.failures = [] ∧ s.published = storesUpTo s.submitters s.nextPublishSeq
  | .replying _ body =>
    s.poisoned = false ∧ s.failures = (if body = .completes then [] else [s.nextPublishSeq]) ∧
      s.published = storesUpTo s.submitters (if body.stores then s.nextPublishSeq + 1 else s.nextPublishSeq)
  | .advancing =>
    if s.poisoned then s.failures = [s.nextPublishSeq] ∧
      (s.published = storesUpTo s.submitters s.nextPublishSeq ∨ s.published = storesUpTo s.submitters (s.nextPublishSeq + 1))
    else s.failures = [] ∧ s.published = storesUpTo s.submitters (s.nextPublishSeq + 1)
  | .exited => s.poisoned = true ∧ ∃ f, s.failures = [f] ∧ f < s.submitters.length ∧
      (s.published = storesUpTo s.submitters f ∨ s.published = storesUpTo s.submitters (f + 1))

theorem stored_init (g : G) : Stored (init g : System G R) := by
  simp [Stored, init, storesUpTo]

/-- Exiting is the only way the poison flag is seen set while the thread holds no failure. -/
theorem Stored.poisoned_of_exited (hs : Stored s) (h : s.mode.isExited = true) : s.poisoned = true := by
  unfold Stored at hs
  cases hm : s.mode <;> simp_all [Mode.isExited]

/-- **Every atomic step of every thread keeps the bookkeeping.** -/
theorem Inv.step (hs : Inv s) (hd : Stored s) (h : step s a = some s') : Inv s' := by
  cases a <;> simp only [Committer.step] at h
  case allot work =>
    split at h
    · cases h; exact hs.allot work ‹_›
    · cases h
  case check seq =>
    split at h
    · rename_i w hw
      cases h
      refine hs.setPhase_of_idle hw (.inl rfl) ?_
      cases hp : s.poisoned <;> simp
    · cases h
  case send seq =>
    split at h
    · rename_i w hw
      split at h
      · cases h
        exact hs.setPhase_of_idle hw (.inr rfl) (.inr ⟨rfl, hd.poisoned_of_exited ‹_›⟩)
      · rename_i hm
        split at h
        · cases h; exact hs.send hw (by simpa using hm)
        · cases h
    · cases h
  case receive =>
    split at h
    · cases h; exact hs.receive ‹_› ‹_›
    · cases h
  case drain body =>
    split at h
    · split at h
      · cases h
        exact hs.between _ .receiving (by simp [bound, *]) (by simp [Mode.inHand, *]) rfl (fun _ => ‹_›) (by simp)
      · cases h; exact hs.drain ‹_› ‹_› _ ⟨rfl, rfl, rfl, rfl, rfl, rfl⟩
    · cases h
  case reply =>
    split at h
    · cases h; exact hs.reply ‹_›
    · cases h
  case advance =>
    split at h
    · cases h
      split
      · exact hs.dropWaiters ‹_› ‹_›
      · exact hs.between _ .draining (by simp [bound, *]) (by simp [Mode.inHand, *]) rfl (by simp) (by simp)
    · cases h

theorem Inv.next_lt (hs : Inv s) (hm : s.bound ≠ s.nextPublishSeq ∨ s.mode.inHand.isSome) :
    s.nextPublishSeq < s.submitters.length := by
  rcases hm with hm | hm
  · obtain ⟨w, r, hw⟩ := hs.answered (i := s.nextPublishSeq) (by unfold bound at *; grind)
    exact (List.getElem?_eq_some_iff.1 hw).1
  · obtain ⟨w, hw⟩ := Option.isSome_iff_exists.1 hm
    exact (List.getElem?_eq_some_iff.1 (hs.hand hw).1).1

theorem Inv.next_le (hs : Inv s) : s.nextPublishSeq ≤ s.submitters.length := by
  rcases Nat.eq_zero_or_pos s.nextPublishSeq with h0 | h0
  · omega
  · obtain ⟨w, r, hw⟩ := hs.answered (i := s.nextPublishSeq - 1) (by unfold bound; split <;> omega)
    have := (List.getElem?_eq_some_iff.1 hw).1; omega

theorem storesUpTo_append (l : List (Submitter G R)) (sub : Submitter G R) {m : ℕ} (hm : m ≤ l.length) :
    storesUpTo (l ++ [sub]) m = storesUpTo l m := by
  simp [storesUpTo, take_append_of_le_length hm]

theorem Inv.storesUpTo_succ (hs : Inv s) {k : ℕ} {sub : Submitter G R}
    (hk : s.submitters[k]? = some sub) :
    storesUpTo s.submitters (k + 1) = storesUpTo s.submitters k ++ [(k, sub.work.snapshot)] := by
  simp [storesUpTo, take_add_one, hk, hs.seqOf hk]

theorem Stored.congr {t : System G R} (hs : Stored s)
    (hw : t.submitters.map work = s.submitters.map work)
    (hm : t.mode = s.mode) (hr : t.poisoned = s.poisoned ∧ t.nextPublishSeq = s.nextPublishSeq ∧
      t.published = s.published ∧ t.failures = s.failures) : Stored t := by
  have hl : t.submitters.length = s.submitters.length := by simpa using congrArg List.length hw
  unfold Stored at *
  simpa only [hm, hr, hl, storesUpTo_congr hw] using hs

theorem Stored.step (hd : Stored s) (hs : Inv s) (h : step s a = some s') : Stored s' := by
  -- an allotment adds a submitter above every bound, and only a drain publishes
  cases a <;> simp only [Committer.step] at h
  case allot work =>
    split at h
    · cases h
      have hle := hs.next_le
      have hlt := hs.next_lt
      unfold Stored at *
      cases hm : s.mode <;> simp only [hm, bound, Mode.inHand] at hd hlt ⊢
      case receiving | draining => rwa [storesUpTo_append _ _ hle]
      case replying =>
        have := hlt (.inr rfl)
        rwa [storesUpTo_append _ _ (by split <;> omega)]
      case advancing =>
        rwa [storesUpTo_append _ _ hle, storesUpTo_append _ _ (by omega)]
      case exited =>
        obtain ⟨hp, f, hf, hfl, hst⟩ := hd
        refine ⟨hp, f, hf, by simp; omega, ?_⟩
        rwa [storesUpTo_append _ _ hfl.le, storesUpTo_append _ _ hfl]
    · cases h
  case check seq =>
    split at h
    · cases h; exact hd.congr (s.map_work_setPhase _ _) rfl ⟨rfl, rfl, rfl, rfl⟩
    · cases h
  case send seq =>
    split at h
    · split at h
      · cases h; exact hd.congr (s.map_work_setPhase _ _) rfl ⟨rfl, rfl, rfl, rfl⟩
      · split at h
        · cases h; exact hd.congr (s.map_work_setPhase _ _) rfl ⟨rfl, rfl, rfl, rfl⟩
        · cases h
    · cases h
  case receive =>
    split at h
    · rename_i hm hc; cases h; unfold Stored at *; simpa only [hm] using hd
    · cases h
  case drain body =>
    split at h
    · rename_i hm
      split at h
      · cases h; unfold Stored at *; simpa only [hm] using hd
      · rename_i w hw
        cases h
        have hst := hs.storesUpTo_succ (hs.reorder hw).2.1
        unfold Stored at *
        simp only [hm] at hd
        obtain ⟨hp, hf, hpub⟩ := hd
        refine ⟨hp, by simp [hf], ?_⟩
        split
        · rw [hpub, hst]
        · exact hpub
    · cases h
  case reply =>
    split at h
    · rename_i w body hm
      cases h
      have hst := storesUpTo_congr (s.map_work_setPhase w.sealSeq (.done (unwrapProtected body w.report)))
      unfold Stored at *
      simp only [hm] at hd
      obtain ⟨hp, hf, hpub⟩ := hd
      cases body with
      | completes => simpa [hp, Body.stores, setPhase] using ⟨hf, hpub.trans (hst _).symm⟩
      | fails stored reason =>
        refine (if_pos (by simp)).mpr ⟨by simpa [setPhase] using hf, ?_⟩
        cases stored with
        | false => exact .inl (hpub.trans (hst _).symm)
        | true => exact .inr (hpub.trans (hst _).symm)
    · cases h
  case advance =>
    split at h
    · rename_i hm
      cases h
      have hlt := hs.next_lt (.inl (by simp [bound, hm]))
      unfold Stored at hd
      simp only [hm] at hd
      split
      · rename_i hp
        rw [if_pos hp] at hd
        have hst := storesUpTo_congr
          (map_work_dropWaiters { s with nextPublishSeq := s.nextPublishSeq + 1 })
        refine ⟨hp, s.nextPublishSeq, hd.1, by simpa [dropWaiters] using hlt, ?_⟩
        exact hd.2.imp (fun h => h.trans (hst _).symm) (fun h => h.trans (hst _).symm)
      · rename_i hp
        rw [if_neg hp] at hd
        exact ⟨by simpa using hp, hd.1, hd.2⟩
    · cases h

/-! ## Every submitter is answered -/

/-- Steps a submitter still causes before its work is in the channel. -/
def Phase.weight : Phase R → ℕ
  | sealed => 20
  | checked => 19
  | _ => 0

def Mode.weight : Mode G R → ℕ
  | draining => 1
  | replying _ _ => 3
  | advancing => 2
  | _ => 0

/-- A bound on the steps left when nobody seals any more. -/
def System.remaining (s : System G R) : ℕ :=
  (s.submitters.map fun sub => sub.phase.weight).sum + 8 * s.channel.length + 4 * s.reorder.size +
    s.mode.weight

theorem sum_setPhase {seq : ℕ} {sub : Submitter G R} (p : Phase R) (h : s.submitters[seq]? = some sub) :
    ((s.setPhase seq p).submitters.map fun sub => sub.phase.weight).sum + sub.phase.weight =
      (s.submitters.map fun sub => sub.phase.weight).sum + p.weight := by
  simp only [setPhase]
  generalize s.submitters = l at h ⊢
  induction l generalizing seq with
  | nil => simp at h
  | cons x l ih =>
    cases seq with
    | zero => simp at h; subst h; simp; omega
    | succ n => have := ih (by simpa using h); simp; omega

theorem sum_dropWaiters (s : System G R) :
    (s.dropWaiters.submitters.map fun sub => sub.phase.weight).sum =
      (s.submitters.map fun sub => sub.phase.weight).sum := by
  simp only [dropWaiters, List.map_map]
  congr 1
  refine List.map_congr_left fun sub _ => ?_
  obtain ⟨w, _ | _ | _ | r⟩ := sub <;> rfl

theorem remaining_lt (hs : Inv s) (ha : a.isAllot = false) (h : step s a = some s') :
    s'.remaining < s.remaining := by
  -- a move takes more weight from where the work leaves than it puts where the work goes
  cases a with
  | allot work => cases ha
  | check seq =>
    simp only [Committer.step] at h
    split at h
    · rename_i w hw
      cases h
      have := sum_setPhase (if s.poisoned then .done (.error committerDead) else .checked) hw
      have : (if s.poisoned then Phase.done (.error committerDead) else .checked : Phase R).weight ≤ 19 := by
        split <;> simp [Phase.weight]
      simp only [System.remaining, System.setPhase_rest, Phase.weight] at *; omega
    · cases h
  | send seq =>
    simp only [Committer.step] at h
    split at h
    · rename_i w hw
      split at h
      · cases h
        have := sum_setPhase (.done (.error committerDead)) hw
        simp only [System.remaining, System.setPhase_rest, Phase.weight] at *; omega
      · split at h
        · cases h
          have := sum_setPhase .waiting hw
          simp only [System.remaining, System.setPhase_rest, Phase.weight, length_append,
            length_singleton] at *
          omega
        · cases h
    · cases h
  | receive =>
    simp only [Committer.step] at h
    split at h
    · rename_i w rest hm hc
      cases h
      have := ExtTreeMap.size_insert_le (t := s.reorder) (k := w.sealSeq) (v := w)
      simp only [System.remaining, hm, hc, Mode.weight, length_cons] at *; omega
    · cases h
  | drain body =>
    simp only [Committer.step] at h
    split at h
    · rename_i hm
      split at h
      · cases h; simp only [System.remaining, hm, Mode.weight]; omega
      · rename_i w hw
        cases h
        have hmem : s.nextPublishSeq ∈ s.reorder := by
          rw [ExtTreeMap.mem_iff_isSome_getElem?, hw]; rfl
        have := ExtTreeMap.size_erase (t := s.reorder) (k := s.nextPublishSeq)
        rw [if_pos (ExtTreeMap.mem_iff_contains.1 hmem)] at this
        have : s.reorder.size ≠ 0 := by
          intro h0
          rw [ExtTreeMap.eq_empty_iff_size_eq_zero.2 h0] at hmem; simp at hmem
        simp only [System.remaining, hm, Mode.weight]; omega
    · cases h
  | reply =>
    simp only [Committer.step] at h
    split at h
    · rename_i w body hm
      cases h
      have hh := (hs.hand (w := w) (by rw [hm]; rfl)).1
      have := sum_setPhase (.done (unwrapProtected body w.report)) hh
      rw [← hs.seqOf hh] at this
      simp only [System.remaining, System.setPhase_rest, hm, Mode.weight, Phase.weight] at *; omega
    · cases h
  | advance =>
    simp only [Committer.step] at h
    split at h
    · rename_i hm
      cases h
      split
      · have := sum_dropWaiters { s with nextPublishSeq := s.nextPublishSeq + 1 }
        simp only [System.remaining, dropWaiters_rest, hm, Mode.weight] at *
        simp only [length_nil, ExtTreeMap.size_empty]; omega
      · simp only [System.remaining, hm, Mode.weight]; omega
    · cases h

/-- **Nothing but a new seal can happen, so everyone has its answer.** The next number to
publish has been allotted if any later work is held back, and its submitter has submitted. -/
theorem answered_of_quiescent (hs : Inv s) (hd : Stored s)
    (hq : ∀ a : Action G R, a.isAllot = false → step s a = none) {i : ℕ} {sub : Submitter G R}
    (hi : s.submitters[i]? = some sub) : ∃ r, sub.phase = .done r := by
  have hmode : s.mode = .exited ∨ s.mode = .receiving ∧ s.channel = [] := by
    have h₁ := hq .receive rfl
    have h₂ := hq (.drain .completes) rfl
    have h₃ := hq .reply rfl
    have h₄ := hq .advance rfl
    simp only [Committer.step] at h₁ h₂ h₃ h₄
    cases hm : s.mode <;> cases hc : s.channel <;> simp only [hm, hc] at h₁ h₂ h₃ h₄ <;> grind
  have hcheck : ∀ (j : ℕ) (w : Work G R), s.submitters[j]? ≠ some ⟨w, .sealed⟩ := by
    intro j w hj
    have := hq (.check j) rfl
    simp [Committer.step, hj] at this
  have hsend : ∀ (j : ℕ) (w : Work G R), s.submitters[j]? ≠ some ⟨w, .checked⟩ := by
    intro j w hj
    have := hq (.send j) rfl
    simp only [Committer.step, hj] at this
    rcases hmode with hm | ⟨hm, hc⟩
    · simp [hm, Mode.isExited] at this
    · simp [hm, hc, Mode.isExited, workChannelCapacity] at this
  have hwait : ∀ (j : ℕ) (w : Work G R), s.submitters[j]? ≠ some ⟨w, .waiting⟩ := by
    intro j w hj
    rcases hmode with hm | ⟨hm, hc⟩
    · obtain ⟨hc, hr⟩ := hs.exited hm
      rcases hs.located hj with h | h | ⟨-, h⟩
      · simp [hc] at h
      · simp [hr] at h
      · simp [hm, Mode.inHand] at h
    · -- the work is held back, so the next number is allotted and its submitter waits too
      have hr : ∀ {j : ℕ} {w : Work G R}, s.submitters[j]? = some ⟨w, .waiting⟩ → s.reorder[j]? = some w := by
        intro j w hj
        rcases hs.located hj with h | h | ⟨-, h⟩
        · simp [hc] at h
        · exact h
        · simp [hm, Mode.inHand] at h
      have hb : s.bound = s.nextPublishSeq := by simp [bound, hm]
      have hp : s.poisoned = false := by unfold Stored at hd; simp only [hm] at hd; exact hd.1
      have hle := (hs.reorder (hr hj)).1
      have hlt : s.nextPublishSeq < s.submitters.length := by
        have := (List.getElem?_eq_some_iff.1 hj).1; omega
      obtain ⟨⟨w', p⟩, hnext⟩ : ∃ sub, s.submitters[s.nextPublishSeq]? = some sub :=
        ⟨_, getElem?_eq_getElem hlt⟩
      cases p with
      | sealed => exact hcheck _ _ hnext
      | checked => exact hsend _ _ hnext
      | waiting => have := hr hnext; rw [hs.parked hm] at this; cases this
      | done r => have := hs.fresh hp hnext; omega
  obtain ⟨w, p⟩ := sub
  cases p with
  | sealed => exact absurd hi (hcheck _ _)
  | checked => exact absurd hi (hsend _ _)
  | waiting => exact absurd hi (hwait _ _)
  | done r => exact ⟨r, rfl⟩

/-! ## Runs -/

/-- The works sealed in a run, in seal order. -/
def allotted (as : List (Action G R)) : List (Work G R) :=
  as.filterMap fun
    | .allot work => some work
    | _ => none

/-- A submitter's answer: its own outcome or the indeterminate error. -/
def Submitter.Answered (sub : Submitter G R) : Prop :=
  sub.phase = .done (.ok sub.work.report) ∨
    ∃ reason, sub.phase = .done (.error (.indeterminateOutcome reason))

theorem step_works (h : step s a = some s') :
    s'.submitters.map work = s.submitters.map work ++ allotted [a] := by
  cases a <;> simp only [Committer.step] at h <;> (repeat' split at h) <;> cases h <;>
    simp [allotted, map_work_setPhase, map_work_dropWaiters]

section

variable {as : List (Action G R)} (h : run step s as = some s')
include h

theorem run_works :
    s'.submitters.map work = s.submitters.map work ++ allotted as := by
  induction as generalizing s with
  | nil => cases h; simp [allotted]
  | cons a as ih =>
    obtain ⟨t, ht, hr⟩ := run_cons.1 h
    rw [ih hr, step_works ht, append_assoc, allotted, allotted, allotted, ← filterMap_append]
    rfl

theorem run_inv (hs : Inv s ∧ Stored s) : Inv s' ∧ Stored s' :=
  run_invariant (I := fun s => Inv s ∧ Stored s) (fun h hI => ⟨hI.1.step hI.2 h, hI.2.step hI.1 h⟩) h hs

end

/-- In every mode the stores are a prefix of the seal order that ends at the failure, if any. -/
theorem Stored.exists_prefix (hd : Stored s) (hs : Inv s) :
    ∃ m ≤ s.submitters.length, s.published = storesUpTo s.submitters m ∧
      ∀ f ∈ s.failures, m ≤ f + 1 := by
  have hle := hs.next_le
  have hlt := hs.next_lt
  unfold Stored at hd
  cases hm : s.mode <;> simp only [hm, bound, Mode.inHand] at hd hlt
  case receiving | draining => exact ⟨_, hle, hd.2.2, by simp [hd.2.1]⟩
  case replying w body =>
    have := hlt (.inr rfl)
    refine ⟨_, ?_, hd.2.2, ?_⟩
    · split <;> omega
    · rw [hd.2.1]; split <;> simp; split <;> omega
  case advancing =>
    have := hlt (.inl (by omega))
    split at hd
    · rcases hd.2 with h | h
      · exact ⟨_, hle, h, by simp [hd.1]⟩
      · exact ⟨_, this, h, by simp [hd.1]⟩
    · exact ⟨_, this, hd.2, by simp [hd.1]⟩
  case exited =>
    obtain ⟨-, f, hf, hfl, h | h⟩ := hd
    · exact ⟨f, hfl.le, h, by simp [hf]⟩
    · exact ⟨f + 1, hfl, h, by simp [hf]⟩

theorem Inv.storesUpTo_fst (hs : Inv s) {m : ℕ} (hm : m ≤ s.submitters.length) :
    (storesUpTo s.submitters m).map Prod.fst = List.range m := by
  refine ext_getElem (by simp [storesUpTo, hm]) fun i h₁ h₂ => ?_
  simp only [storesUpTo, getElem_map, getElem_take, getElem_range]
  exact hs.seqOf (getElem?_eq_getElem _)

/-- Two works that arrive in the wrong order; the first of them fails after its store. -/
def swappedArrival : List (Action ℕ ℕ) :=
  [.allot (.compact 0 10 100), .allot (.commit ⟨1, 11, true, 101⟩), .check 1, .send 1, .receive,
    .drain .completes, .check 0, .send 0, .receive, .drain (.fails true "provider"), .reply, .advance]

end Selene.Committer
