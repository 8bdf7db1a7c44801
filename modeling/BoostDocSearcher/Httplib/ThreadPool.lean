import Mathlib.Algebra.BigOperators.Fin
import Mathlib.Algebra.BigOperators.Group.Finset.Piecewise
import Mathlib.Algebra.Order.BigOperators.Group.Finset
import Mathlib.Data.Multiset.AddSub
import BoostDocSearcher.Library.Transition

/-!
# The thread pool of the server

The listening thread accepts connections and puts one job for each into a queue, from which worker
threads take them. A mutex guards the queue, and a condition variable puts workers to sleep while
there is nothing to do. The threads interleave in any order, and sleeping workers may wake up
without reason. In every interleaving the jobs are taken from the queue in the order in which their
connections were accepted, each accepted connection is processed exactly once, no wake-up is lost,
and a shutdown returns only after all accepted connections have been processed.

A step takes a job from the queue, releases the mutex and begins the call. Between these a worker
does nothing that another thread can see, but the calls themselves may begin in another order.
-/

namespace BoostDocSearcher.ThreadPool

/-- `CPPHTTPLIB_THREAD_POOL_COUNT`. -/
def threadPoolCount (hardwareConcurrency : Nat) : Nat :=
  max 8 (if hardwareConcurrency > 0 then hardwareConcurrency - 1 else 0)

/-! ## States -/

/-- The place of a worker thread in its loop. -/
inductive Worker (Job : Type*) where
  /-- Before it has the mutex, at the top of the loop or behind a wake-up. -/
  | ready
  /-- With the mutex, before it looks at the queue. -/
  | checking
  /-- Asleep at the condition variable. -/
  | waiting
  /-- Calling a job. -/
  | running (fn : Job)
  /-- Behind the loop. -/
  | exited

/-- The place of the listening thread. -/
inductive Listener (Job : Type*) where
  /-- In the loop that accepts connections. -/
  | accepting
  /-- In `enqueue`, before it has the mutex. -/
  | enqueueing (fn : Job)
  /-- In `enqueue`, with the mutex. -/
  | pushing (fn : Job)
  /-- In `enqueue`, behind `push_back`. -/
  | notifyingOne
  /-- In `enqueue`, behind `notify_one`. -/
  | unlocking
  /-- In `shutdown`, before it has the mutex. -/
  | stopping
  /-- In `shutdown`, with the mutex. -/
  | flagging
  /-- In `shutdown`, behind the assignment. -/
  | flagged
  /-- In `shutdown`, without the mutex, before `notify_all`. -/
  | notifyingAll
  /-- In `shutdown`, with this number of threads joined. -/
  | joining (joined : Nat)
  /-- Behind `shutdown`. -/
  | returned

/-- Who has the mutex. -/
inductive Holder (n : Nat) where
  /-- The listening thread. -/
  | listener
  /-- A worker thread. -/
  | worker (i : Fin n)
  deriving DecidableEq

/-- The pool, with a record of what happened to the jobs. -/
structure Pool (n : Nat) (Job : Type*) where
  /-- `jobs_`. -/
  jobs : List Job
  /-- `shutdown_`. -/
  shutdown : Bool
  /-- The state of `mutex_`. -/
  owner : Option (Holder n)
  /-- `threads_`. -/
  workers : Fin n → Worker Job
  /-- The thread that listens. -/
  listener : Listener Job
  /-- The jobs of the connections that `accept` returned, in their order. -/
  accepted : List Job
  /-- The jobs that were taken from the queue, in their order. -/
  taken : List Job
  /-- The jobs whose calls returned, in their order. -/
  finished : List Job

variable {n : Nat} {Job : Type*}

namespace Pool

/-- A new pool. -/
def fresh (n : Nat) (Job : Type*) : Pool n Job where
  jobs := []
  shutdown := false
  owner := none
  workers := fun _ => .ready
  listener := .accepting
  accepted := []
  taken := []
  finished := []

/-- Move one worker. -/
def move (pool : Pool n Job) (i : Fin n) (place : Worker Job) : Pool n Job :=
  { pool with workers := Function.update pool.workers i place }

/-- Wake every sleeping worker. -/
def wakeAll (pool : Pool n Job) : Pool n Job :=
  { pool with workers := fun i =>
      match pool.workers i with
      | .waiting => .ready
      | place => place }

end Pool

/-! ## Steps -/

/-- What the environment does: connections arrive, the server is stopped, and a sleeping worker
wakes up without reason. -/
inductive External : Pool n Job → Pool n Job → Prop where
  /-- `accept` returns a connection. -/
  | accept (pool : Pool n Job) (fn : Job) : pool.listener = .accepting →
      External pool { pool with
        listener := .enqueueing fn, accepted := pool.accepted ++ [fn] }
  /-- The loop of `listen_internal` ends. -/
  | stop (pool : Pool n Job) : pool.listener = .accepting →
      External pool { pool with listener := .stopping }
  /-- A spurious wake-up. -/
  | spurious (pool : Pool n Job) (i : Fin n) : pool.workers i = .waiting →
      External pool (pool.move i .ready)

/-- What the threads do. -/
inductive Internal : Pool n Job → Pool n Job → Prop where
  /-- `enqueue` gets the mutex. -/
  | lockEnqueue (pool : Pool n Job) (fn : Job) : pool.listener = .enqueueing fn →
      pool.owner = none →
      Internal pool { pool with listener := .pushing fn, owner := some .listener }
  /-- `jobs_.push_back`. -/
  | push (pool : Pool n Job) (fn : Job) : pool.listener = .pushing fn →
      Internal pool { pool with listener := .notifyingOne, jobs := pool.jobs ++ [fn] }
  /-- `notify_one` wakes some sleeping worker. -/
  | notifyOne (pool : Pool n Job) (i : Fin n) : pool.listener = .notifyingOne →
      pool.workers i = .waiting →
      Internal pool { pool.move i .ready with listener := .unlocking }
  /-- `notify_one` while no worker sleeps. -/
  | notifyNone (pool : Pool n Job) : pool.listener = .notifyingOne →
      (∀ i, pool.workers i ≠ .waiting) →
      Internal pool { pool with listener := .unlocking }
  /-- `enqueue` returns. -/
  | unlockEnqueue (pool : Pool n Job) : pool.listener = .unlocking →
      Internal pool { pool with listener := .accepting, owner := none }
  /-- `shutdown` gets the mutex. -/
  | lockShutdown (pool : Pool n Job) : pool.listener = .stopping → pool.owner = none →
      Internal pool { pool with listener := .flagging, owner := some .listener }
  /-- `shutdown_ = true`. -/
  | flag (pool : Pool n Job) : pool.listener = .flagging →
      Internal pool { pool with listener := .flagged, shutdown := true }
  /-- `shutdown` releases the mutex. -/
  | unlockShutdown (pool : Pool n Job) : pool.listener = .flagged →
      Internal pool { pool with listener := .notifyingAll, owner := none }
  /-- `notify_all`. -/
  | notifyAll (pool : Pool n Job) : pool.listener = .notifyingAll →
      Internal pool { pool.wakeAll with listener := .joining 0 }
  /-- `join` returns for the next thread. -/
  | join (pool : Pool n Job) (i : Fin n) : pool.listener = .joining i →
      pool.workers i = .exited →
      Internal pool { pool with listener := .joining (i + 1) }
  /-- `shutdown` returns. -/
  | finishShutdown (pool : Pool n Job) : pool.listener = .joining n →
      Internal pool { pool with listener := .returned }
  /-- A worker gets the mutex. -/
  | lock (pool : Pool n Job) (i : Fin n) : pool.workers i = .ready → pool.owner = none →
      Internal pool { pool.move i .checking with owner := some (.worker i) }
  /-- A worker finds nothing to do, and sleeps without the mutex. -/
  | wait (pool : Pool n Job) (i : Fin n) : pool.workers i = .checking → pool.jobs = [] →
      pool.shutdown = false →
      Internal pool { pool.move i .waiting with owner := none }
  /-- A worker leaves its loop. -/
  | exit (pool : Pool n Job) (i : Fin n) : pool.workers i = .checking → pool.jobs = [] →
      pool.shutdown = true →
      Internal pool { pool.move i .exited with owner := none }
  /-- A worker takes the first job, and releases the mutex. -/
  | take (pool : Pool n Job) (i : Fin n) (fn : Job) (rest : List Job) :
      pool.workers i = .checking → pool.jobs = fn :: rest →
      Internal pool { pool.move i (.running fn) with
        owner := none, jobs := rest, taken := pool.taken ++ [fn] }
  /-- The call of a job returns. -/
  | finish (pool : Pool n Job) (i : Fin n) (fn : Job) : pool.workers i = .running fn →
      Internal pool { pool.move i .ready with finished := pool.finished ++ [fn] }

/-- Any step. -/
def Step (before after : Pool n Job) : Prop :=
  External before after ∨ Internal before after

/-- The states that a pool can reach. -/
abbrev Reachable : Pool n Job → Prop :=
  Transition.Reachable (fun pool => pool = .fresh n Job) Step

/-! ## Invariants -/

/-- The places at which the listening thread has the mutex. -/
def Listener.Locked : Listener Job → Prop
  | pushing _ | notifyingOne | unlocking | flagging | flagged => True
  | _ => False

/-- The places at which the listening thread has set the flag. -/
def Listener.Stopped : Listener Job → Prop
  | flagged | notifyingAll | joining _ | returned => True
  | _ => False

/-- The places of the listening thread behind `notify_all`. -/
def Listener.Roused : Listener Job → Prop
  | joining _ | returned => True
  | _ => False

/-- The jobs that a worker is calling. -/
def Worker.held : Worker Job → Multiset Job
  | running fn => {fn}
  | _ => 0

@[simp]
theorem Worker.held_running (fn : Job) : (running fn).held = {fn} :=
  rfl

@[simp]
theorem Worker.held_idle :
    (ready : Worker Job).held = 0 ∧ (checking : Worker Job).held = 0 ∧
      (waiting : Worker Job).held = 0 ∧ (exited : Worker Job).held = 0 :=
  ⟨rfl, rfl, rfl, rfl⟩

@[simp]
theorem Pool.workers_move (pool : Pool n Job) (i j : Fin n) (place : Worker Job) :
    (pool.move i place).workers j = if j = i then place else pool.workers j :=
  Function.update_apply _ _ _ _

@[simp]
theorem Pool.workers_wakeAll_eq_iff (pool : Pool n Job) (i : Fin n) :
    (pool.wakeAll.workers i = .checking ↔ pool.workers i = .checking) ∧
      (pool.wakeAll.workers i = .exited ↔ pool.workers i = .exited) ∧
        pool.wakeAll.workers i ≠ .waiting := by
  simp only [wakeAll]
  cases pool.workers i <;> simp

/-- The mutex is where the threads think that it is. -/
structure MutexSound (pool : Pool n Job) : Prop where
  /-- A worker that looks at the queue has the mutex. -/
  worker : ∀ i, pool.workers i = .checking ↔ pool.owner = some (.worker i)
  /-- The listening thread has the mutex at its locked places. -/
  listener : pool.listener.Locked ↔ pool.owner = some .listener

theorem mutexSound_fresh : MutexSound (.fresh n Job) := by
  refine ⟨fun i => ?_, ?_⟩ <;> simp [Pool.fresh, Listener.Locked]

theorem MutexSound.step {before after : Pool n Job} (sound : MutexSound before)
    (step : Step before after) : MutexSound after := by
  obtain ⟨worker, listener⟩ := sound
  rcases step with external | internal
  · cases external with
    | accept fn at_loop => exact ⟨worker, by simpa [at_loop, Listener.Locked] using listener⟩
    | stop at_loop => exact ⟨worker, by simpa [at_loop, Listener.Locked] using listener⟩
    | spurious i asleep =>
        refine ⟨fun j => ?_, listener⟩
        have := worker j
        grind [Pool.workers_move, Pool.move]
  · have owned (j : Fin n) := worker j
    cases internal <;> refine ⟨fun j => ?_, ?_⟩
    all_goals grind [Pool.workers_move, Pool.move, Listener.Locked, Pool.wakeAll]

/-- The jobs that the workers are calling. -/
def Pool.held (pool : Pool n Job) : Multiset Job := ∑ i, (pool.workers i).held

theorem Pool.sum_move {M : Type*} [AddCommMonoid M] (f : Worker Job → M) (pool : Pool n Job)
    (i : Fin n) (place : Worker Job) :
    ∑ j, f ((pool.move i place).workers j) + f (pool.workers i) =
      ∑ j, f (pool.workers j) + f place := by
  have moved : (fun j => f ((pool.move i place).workers j)) =
      Function.update (fun j => f (pool.workers j)) i (f place) := by
    funext j
    rw [Pool.workers_move, Function.update_apply]
    split <;> rfl
  rw [moved, Finset.sum_update_of_mem (Finset.mem_univ i),
    ← Finset.sum_sdiff (Finset.subset_univ {i}), Finset.sum_singleton,
    add_comm (f place), add_right_comm]

theorem Pool.held_move (pool : Pool n Job) (i : Fin n) (place : Worker Job) :
    (pool.move i place).held + (pool.workers i).held = pool.held + place.held :=
  pool.sum_move Worker.held i place

/-- The job that the listening thread is about to push. -/
def Listener.pending : Listener Job → List Job
  | enqueueing fn | pushing fn => [fn]
  | _ => []

/-- No job is lost and none is taken twice: the accepted jobs are the taken ones, then the queued
ones, then the one about to be pushed, and each taken job is being called or its call has
returned. -/
structure QueueSound (pool : Pool n Job) : Prop where
  /-- Jobs are taken in the order in which their connections were accepted. -/
  order : pool.accepted = pool.taken ++ pool.jobs ++ pool.listener.pending
  /-- A taken job is in one place. -/
  once : (pool.taken : Multiset Job) = pool.finished + pool.held

theorem queueSound_fresh : QueueSound (.fresh n Job) := by
  refine ⟨rfl, ?_⟩
  simp [Pool.fresh, Pool.held, Worker.held]

/-- A worker that holds nothing before and behind a move leaves the record as it is. -/
theorem Pool.held_move_of_idle {pool : Pool n Job} {i : Fin n} {place : Worker Job}
    (before : (pool.workers i).held = 0) (after : place.held = 0) :
    (pool.move i place).held = pool.held := by
  simpa [before, after] using pool.held_move i place

theorem Pool.held_wakeAll (pool : Pool n Job) : pool.wakeAll.held = pool.held := by
  refine Finset.sum_congr rfl fun i _ => ?_
  simp only [wakeAll]
  cases pool.workers i <;> rfl

theorem QueueSound.step {before after : Pool n Job} (sound : QueueSound before)
    (step : Step before after) : QueueSound after := by
  obtain ⟨order, once⟩ := sound
  have idle {i : Fin n} {place : Worker Job} (here : (before.workers i).held = 0)
      (there : place.held = 0) :
      (before.taken : Multiset Job) = before.finished + (before.move i place).held := by
    rw [once, Pool.held_move_of_idle here there]
  have moved_on {place : Listener Job} {here : Listener Job} (at_place : before.listener = here)
      (same : place.pending = here.pending) :
      before.accepted = before.taken ++ before.jobs ++ place.pending := by
    rw [order, at_place, same]
  rcases step with external | internal
  · cases external with
    | accept fn at_loop =>
        refine ⟨?_, once⟩
        rw [order, at_loop]
        simp [Listener.pending]
    | stop at_loop => exact ⟨moved_on at_loop rfl, once⟩
    | spurious i asleep => exact ⟨order, idle (by rw [asleep]; rfl) rfl⟩
  · cases internal with
    | lockEnqueue fn at_lock => exact ⟨moved_on at_lock rfl, once⟩
    | push fn at_push =>
        refine ⟨?_, once⟩
        rw [order, at_push]
        simp [Listener.pending]
    | notifyOne i at_notify asleep =>
        exact ⟨moved_on at_notify rfl, idle (by rw [asleep]; rfl) rfl⟩
    | notifyNone at_notify => exact ⟨moved_on at_notify rfl, once⟩
    | unlockEnqueue at_unlock => exact ⟨moved_on at_unlock rfl, once⟩
    | lockShutdown at_lock => exact ⟨moved_on at_lock rfl, once⟩
    | flag at_flag => exact ⟨moved_on at_flag rfl, once⟩
    | unlockShutdown at_unlock => exact ⟨moved_on at_unlock rfl, once⟩
    | notifyAll at_notify =>
        rw [← before.held_wakeAll] at once
        exact ⟨moved_on at_notify rfl, once⟩
    | join i at_join => exact ⟨moved_on at_join rfl, once⟩
    | finishShutdown at_join => exact ⟨moved_on at_join rfl, once⟩
    | lock i woken => exact ⟨order, idle (by rw [woken]; rfl) rfl⟩
    | wait i looking => exact ⟨order, idle (by rw [looking]; rfl) rfl⟩
    | exit i looking => exact ⟨order, idle (by rw [looking]; rfl) rfl⟩
    | take i fn rest looking queued =>
        have moved := before.held_move i (.running fn)
        rw [looking, Worker.held_idle.2.1, Worker.held_running, add_zero] at moved
        refine ⟨?_, ?_⟩
        · change before.accepted = (before.taken ++ [fn]) ++ rest ++ before.listener.pending
          rw [order, queued, List.append_assoc before.taken [fn]]
          rfl
        · change (↑(before.taken ++ [fn]) : Multiset Job) =
            before.finished + (before.move i (.running fn)).held
          rw [← Multiset.coe_add, once, moved, add_assoc]
          rfl
    | finish i fn calling =>
        have moved := before.held_move i .ready
        rw [calling, Worker.held_idle.1, Worker.held_running, add_zero] at moved
        refine ⟨order, ?_⟩
        change (before.taken : Multiset Job) =
          ↑(before.finished ++ [fn]) + (before.move i .ready).held
        rw [← Multiset.coe_add, once, ← moved, add_assoc, add_comm _ ({fn} : Multiset Job)]
        rfl

/-- A worker leaves only when the queue is drained for good, and a shutdown waits for all of
them. -/
structure ShutdownSound (pool : Pool n Job) : Prop where
  /-- The flag is set by the listening thread. -/
  flag_iff : pool.shutdown = true ↔ pool.listener.Stopped
  /-- A worker leaves when there is nothing left to do. -/
  drained : ∀ i, pool.workers i = .exited → pool.shutdown = true ∧ pool.jobs = []
  /-- Behind `notify_all` nobody sleeps. -/
  roused : pool.listener.Roused → ∀ i, pool.workers i ≠ .waiting
  /-- There are no more threads to join than there are. -/
  bounded : ∀ k, pool.listener = .joining k → k ≤ n
  /-- Joined workers have left. -/
  joined : ∀ k, pool.listener = .joining k → ∀ i : Fin n, i < k → pool.workers i = .exited
  /-- Behind `shutdown` all workers have left. -/
  left : pool.listener = .returned → ∀ i, pool.workers i = .exited

theorem shutdownSound_fresh : ShutdownSound (.fresh n Job) := by
  refine ⟨?_, ?_, ?_, ?_, ?_, ?_⟩ <;> simp [Pool.fresh, Listener.Stopped, Listener.Roused]

theorem Listener.Roused.stopped {listener : Listener Job} (roused : listener.Roused) :
    listener.Stopped := by
  cases listener <;> trivial

theorem ShutdownSound.step {before after : Pool n Job} (sound : ShutdownSound before)
    (step : Step before after) : ShutdownSound after := by
  obtain ⟨flag_iff, drained, roused, bounded, joined, left⟩ := sound
  rcases step with external | internal
  · cases external <;> refine ⟨?_, ?_, ?_, ?_, ?_, ?_⟩
    all_goals grind [Pool.workers_move, Pool.move, Listener.Stopped, Listener.Roused]
  · cases internal with
    | join i joining_eq gone =>
        have stopped : before.shutdown = true := flag_iff.mpr (by rw [joining_eq]; trivial)
        have awake := roused (by rw [joining_eq]; trivial)
        refine ⟨by simp [stopped, Listener.Stopped], drained, fun _ => awake, ?_, ?_, by simp⟩
        · intro k k_eq
          obtain rfl : i.val + 1 = k := by simpa using k_eq
          exact i.isLt
        intro k k_eq j below
        obtain rfl : i.val + 1 = k := by simpa using k_eq
        rcases Nat.lt_succ_iff_lt_or_eq.mp below with earlier | same
        · exact joined i joining_eq j earlier
        · rw [Fin.ext same]
          exact gone
    | finishShutdown joining_eq =>
        have stopped : before.shutdown = true := flag_iff.mpr (by rw [joining_eq]; trivial)
        have awake := roused (by rw [joining_eq]; trivial)
        refine ⟨by simp [stopped, Listener.Stopped], drained, fun _ => awake, by simp, by simp, ?_⟩
        intro _ i
        exact joined n joining_eq i i.isLt
    | wait i looking nothing unset =>
        -- A worker goes to sleep only while the flag is not set, hence before `notify_all`.
        have early : ¬ before.listener.Stopped := by
          rw [← flag_iff, unset]
          exact Bool.false_ne_true
        have stopped_of_eq {place : Listener Job} (here : before.listener = place)
            (late : place.Stopped) : before.listener.Stopped := here ▸ late
        refine ⟨flag_iff, ?_, fun late => absurd late.stopped early, bounded, ?_, ?_⟩
        · grind [Pool.workers_move, Pool.move]
        · intro k k_eq
          exact absurd (stopped_of_eq k_eq trivial) early
        · intro returned
          exact absurd (stopped_of_eq returned trivial) early
    | _ =>
        refine ⟨?_, ?_, ?_, ?_, ?_, ?_⟩
        all_goals
          grind [Pool.workers_move, Pool.move, Listener.Stopped, Listener.Roused, Pool.wakeAll]

/-- No wake-up is lost: while there are jobs, somebody is awake or about to be woken. -/
def Awake (pool : Pool n Job) : Prop :=
  pool.jobs ≠ [] → pool.listener ≠ .notifyingOne → ∃ i, pool.workers i ≠ .waiting

/-- A worker that is moved to any other place than sleep is awake. -/
theorem exists_awake_move (pool : Pool n Job) (i : Fin n) {place : Worker Job}
    (up : place ≠ .waiting) : ∃ j, (pool.move i place).workers j ≠ .waiting :=
  ⟨i, by rwa [Pool.workers_move, if_pos rfl]⟩

theorem Awake.step (positive : 0 < n) {before after : Pool n Job} (awake : Awake before)
    (step : Step before after) : Awake after := by
  intro queued settled
  rcases step with external | internal
  · cases external with
    | accept fn at_loop => exact awake queued (by simp [at_loop])
    | stop at_loop => exact awake queued (by simp [at_loop])
    | spurious i => exact exists_awake_move before i (by simp)
  · cases internal with
    | lockEnqueue fn at_lock => exact awake queued (by simp [at_lock])
    | push fn => exact absurd rfl settled
    | notifyOne i => exact exists_awake_move before i (by simp)
    | notifyNone _ nobody => exact ⟨⟨0, positive⟩, nobody _⟩
    | unlockEnqueue at_unlock => exact awake queued (by simp [at_unlock])
    | lockShutdown at_lock => exact awake queued (by simp [at_lock])
    | flag at_flag => exact awake queued (by simp [at_flag])
    | unlockShutdown at_unlock => exact awake queued (by simp [at_unlock])
    | notifyAll => exact ⟨⟨0, positive⟩, (before.workers_wakeAll_eq_iff _).2.2⟩
    | join i at_join => exact awake queued (by simp [at_join])
    | finishShutdown at_join => exact awake queued (by simp [at_join])
    | lock i => exact exists_awake_move before i (by simp)
    | wait i _ nothing => exact absurd nothing queued
    | exit i => exact exists_awake_move before i (by simp)
    | take i => exact exists_awake_move before i (by simp)
    | finish i => exact exists_awake_move before i (by simp)

/-- What holds in every reachable state. -/
structure Sound (pool : Pool n Job) : Prop where
  /-- The mutex is where the threads think that it is. -/
  mutex : MutexSound pool
  /-- No job is lost and none is taken twice. -/
  queue : QueueSound pool
  /-- A shutdown waits for all workers. -/
  shutdown : ShutdownSound pool
  /-- No wake-up is lost. -/
  awake : Awake pool

theorem Sound.step (positive : 0 < n) {before after : Pool n Job} (sound : Sound before)
    (step : Step before after) : Sound after :=
  ⟨sound.mutex.step step, sound.queue.step step, sound.shutdown.step step,
    sound.awake.step positive step⟩

theorem sound_of_reachable (positive : 0 < n) {pool : Pool n Job} (reachable : Reachable pool) :
    Sound pool := by
  have kept : Transition.Invariant (fun pool => pool = .fresh n Job) Step Sound := by
    refine ⟨?_, fun before after sound step => sound.step positive step⟩
    rintro _ rfl
    exact ⟨mutexSound_fresh, queueSound_fresh, shutdownSound_fresh, fun queued => absurd rfl queued⟩
  exact kept.of_reachable reachable

/-! ## Progress -/

/-- Nothing is left to do: all workers sleep over an empty queue, or the shutdown has returned. -/
def Quiet (pool : Pool n Job) : Prop :=
  (pool.listener = .accepting ∧ pool.jobs = [] ∧ ∀ i, pool.workers i = .waiting) ∨
    pool.listener = .returned

theorem exists_internal_of_checking {pool : Pool n Job} {i : Fin n}
    (looking : pool.workers i = .checking) : ∃ after, Internal pool after := by
  cases queued : pool.jobs with
  | cons fn rest => exact ⟨_, .take pool i fn rest looking queued⟩
  | nil =>
      cases flag : pool.shutdown with
      | false => exact ⟨_, .wait pool i looking queued flag⟩
      | true => exact ⟨_, .exit pool i looking queued flag⟩

/-- While the mutex is free, a worker that has not left can go on, unless it sleeps. -/
theorem exists_internal_of_free {pool : Pool n Job} (free : pool.owner = none) {i : Fin n}
    (awake : pool.workers i ≠ .waiting) (inside : pool.workers i ≠ .exited) :
    ∃ after, Internal pool after := by
  cases place : pool.workers i with
  | ready => exact ⟨_, .lock pool i place free⟩
  | checking => exact exists_internal_of_checking place
  | waiting => exact absurd place awake
  | running fn => exact ⟨_, .finish pool i fn place⟩
  | exited => exact absurd place inside

/-- No deadlock: unless nothing is left to do, some thread can go on. -/
theorem Sound.progress {pool : Pool n Job} (sound : Sound pool) (busy : ¬ Quiet pool) :
    ∃ after, Internal pool after := by
  obtain ⟨mutex, -, shutdown, awake⟩ := sound
  by_cases looking : ∃ i, pool.workers i = .checking
  · obtain ⟨i, looking⟩ := looking
    exact exists_internal_of_checking looking
  have free (unlocked : ¬ pool.listener.Locked) : pool.owner = none := by
    cases owned : pool.owner with
    | none => rfl
    | some holder =>
        cases holder with
        | listener => exact absurd (mutex.listener.mpr owned) unlocked
        | worker i => exact absurd ⟨i, (mutex.worker i).mpr owned⟩ looking
  have unlocked_of_eq {place : Listener Job} (here : pool.listener = place)
      (unlocked : ¬ place.Locked) : pool.owner = none := free (here ▸ unlocked)
  cases place : pool.listener with
  | accepting =>
      have unlocked := unlocked_of_eq place id
      by_cases all_asleep : ∀ i, pool.workers i = .waiting
      · by_cases empty : pool.jobs = []
        · exact absurd (.inl ⟨place, empty, all_asleep⟩) busy
        · obtain ⟨i, up⟩ := awake empty (by simp [place])
          exact absurd (all_asleep i) up
      · obtain ⟨i, up⟩ := not_forall.mp all_asleep
        refine exists_internal_of_free unlocked up fun gone => ?_
        have stopped := shutdown.flag_iff.mp (shutdown.drained i gone).1
        rw [place] at stopped
        exact stopped
  | enqueueing fn => exact ⟨_, .lockEnqueue pool fn place (unlocked_of_eq place id)⟩
  | pushing fn => exact ⟨_, .push pool fn place⟩
  | notifyingOne =>
      by_cases nobody : ∀ i, pool.workers i ≠ .waiting
      · exact ⟨_, .notifyNone pool place nobody⟩
      · obtain ⟨i, asleep⟩ := not_forall.mp nobody
        exact ⟨_, .notifyOne pool i place (not_not.mp asleep)⟩
  | unlocking => exact ⟨_, .unlockEnqueue pool place⟩
  | stopping => exact ⟨_, .lockShutdown pool place (unlocked_of_eq place id)⟩
  | flagging => exact ⟨_, .flag pool place⟩
  | flagged => exact ⟨_, .unlockShutdown pool place⟩
  | notifyingAll => exact ⟨_, .notifyAll pool place⟩
  | joining k =>
      rcases Nat.lt_or_eq_of_le (shutdown.bounded k place) with more | rfl
      · by_cases gone : pool.workers ⟨k, more⟩ = .exited
        · exact ⟨_, .join pool ⟨k, more⟩ place gone⟩
        · exact exists_internal_of_free (unlocked_of_eq place id)
            (shutdown.roused (by rw [place]; trivial) _) gone
      · exact ⟨_, .finishShutdown pool place⟩
  | returned => exact absurd (.inr place) busy

/-! ## Termination -/

/-- How much a worker still does for what it holds. -/
def Worker.rank : Worker Job → Nat
  | waiting | exited => 0
  | checking => 1
  | ready => 2
  | running _ => 3

/-- How much the listening thread still does, wake-ups included. -/
def Listener.rank (n : Nat) : Listener Job → Nat
  | accepting | returned => 0
  | unlocking => 1
  | notifyingOne => 4
  | pushing _ => 8
  | enqueueing _ => 9
  | joining k => 1 + (n - k)
  | notifyingAll => 2 + 3 * n
  | flagged => 3 + 3 * n
  | flagging => 4 + 3 * n
  | stopping => 5 + 3 * n

/-- How much is left to do. -/
def Pool.measure (pool : Pool n Job) : Nat :=
  pool.listener.rank n + 3 * pool.jobs.length + ∑ i, (pool.workers i).rank

theorem Pool.sum_rank_wakeAll (pool : Pool n Job) :
    ∑ i, (pool.wakeAll.workers i).rank ≤ ∑ i, (pool.workers i).rank + 2 * n := by
  have each (i : Fin n) : (pool.wakeAll.workers i).rank ≤ (pool.workers i).rank + 2 := by
    simp only [wakeAll]
    cases pool.workers i <;> simp [Worker.rank]
  have total := Finset.sum_le_sum fun i (_ : i ∈ Finset.univ) => each i
  rw [Finset.sum_add_distrib] at total
  simp only [Finset.sum_const, Finset.card_univ, Fintype.card_fin, smul_eq_mul] at total
  omega

/-- A worker that comes to a place of smaller rank has less left to do. -/
theorem Pool.sum_rank_move (pool : Pool n Job) (i : Fin n) {here : Worker Job}
    (place : pool.workers i = here) (there : Worker Job) :
    ∑ j, ((pool.move i there).workers j).rank + here.rank =
      ∑ j, (pool.workers j).rank + there.rank := by
  have total := pool.sum_move Worker.rank i there
  rwa [place] at total

/-- Every step of a thread brings the pool closer to having nothing left to do. -/
theorem measure_lt {before after : Pool n Job} (step : Internal before after) :
    after.measure < before.measure := by
  cases step with
  | lockEnqueue fn at_lock => simp [Pool.measure, at_lock, Listener.rank]
  | push fn at_push =>
      simp only [Pool.measure, at_push, Listener.rank, List.length_append, List.length_singleton]
      omega
  | notifyOne i at_notify asleep =>
      have total : _ + 0 = _ + 2 := before.sum_rank_move i asleep .ready
      have here : before.listener.rank n = 4 := by
        rw [at_notify]
        rfl
      change 1 + 3 * before.jobs.length + ∑ j, ((before.move i .ready).workers j).rank < _
      rw [Pool.measure]
      omega
  | notifyNone at_notify => simp [Pool.measure, at_notify, Listener.rank]
  | unlockEnqueue at_unlock => simp [Pool.measure, at_unlock, Listener.rank]
  | lockShutdown at_lock => simp [Pool.measure, at_lock, Listener.rank]
  | flag at_flag => simp [Pool.measure, at_flag, Listener.rank]
  | unlockShutdown at_unlock => simp [Pool.measure, at_unlock, Listener.rank]
  | notifyAll at_notify =>
      have total := before.sum_rank_wakeAll
      have here : before.listener.rank n = 2 + 3 * n := by
        rw [at_notify]
        rfl
      change 1 + (n - 0) + 3 * before.jobs.length + ∑ j, (before.wakeAll.workers j).rank < _
      rw [Pool.measure]
      omega
  | join i at_join =>
      have inside := i.isLt
      simp only [Pool.measure, at_join, Listener.rank]
      omega
  | finishShutdown at_join => simp [Pool.measure, at_join, Listener.rank]
  | lock i woken =>
      have total : _ + 2 = _ + 1 := before.sum_rank_move i woken .checking
      change before.listener.rank n + 3 * before.jobs.length +
        ∑ j, ((before.move i .checking).workers j).rank < _
      rw [Pool.measure]
      omega
  | wait i looking =>
      have total : _ + 1 = _ + 0 := before.sum_rank_move i looking .waiting
      change before.listener.rank n + 3 * before.jobs.length +
        ∑ j, ((before.move i .waiting).workers j).rank < _
      rw [Pool.measure]
      omega
  | exit i looking =>
      have total : _ + 1 = _ + 0 := before.sum_rank_move i looking .exited
      change before.listener.rank n + 3 * before.jobs.length +
        ∑ j, ((before.move i .exited).workers j).rank < _
      rw [Pool.measure]
      omega
  | take i fn rest looking queued =>
      have total : _ + 1 = _ + 3 := before.sum_rank_move i looking (.running fn)
      change before.listener.rank n + 3 * rest.length +
        ∑ j, ((before.move i (.running fn)).workers j).rank < _
      rw [Pool.measure, queued, List.length_cons]
      omega
  | finish i fn calling =>
      have total : _ + 3 = _ + 2 := before.sum_rank_move i calling .ready
      change before.listener.rank n + 3 * before.jobs.length +
        ∑ j, ((before.move i .ready).workers j).rank < _
      rw [Pool.measure]
      omega

/-! ## The pool as a whole -/

/-- What a pool never violates, whatever the interleaving. -/
structure Safe (pool : Pool n Job) : Prop where
  /-- At most one thread has the mutex. -/
  exclusive : ∀ i, pool.workers i = .checking →
    ¬ pool.listener.Locked ∧ ∀ j, pool.workers j = .checking → j = i
  /-- Jobs are taken in the order of arrival. -/
  order : pool.taken <+: pool.accepted
  /-- Each accepted job is in one place: finished, being called, in the queue, or about to be
  pushed. -/
  once : (pool.accepted : Multiset Job) =
    pool.finished + pool.held + pool.jobs + pool.listener.pending
  /-- When the shutdown returns, every accepted job is finished, and all workers have left. -/
  shutdown : pool.listener = .returned →
    pool.finished.Perm pool.accepted ∧ ∀ i, pool.workers i = .exited

theorem held_of_idle {pool : Pool n Job} (idle : ∀ i, (pool.workers i).held = 0) :
    pool.held = 0 :=
  Finset.sum_eq_zero fun i _ => idle i

theorem Sound.once {pool : Pool n Job} (sound : Sound pool) :
    (pool.accepted : Multiset Job) =
      pool.finished + pool.held + pool.jobs + pool.listener.pending := by
  rw [sound.queue.order, ← Multiset.coe_add, ← Multiset.coe_add, sound.queue.once]

theorem Sound.finished_perm {pool : Pool n Job} (sound : Sound pool) (empty : pool.jobs = [])
    (idle : ∀ i, (pool.workers i).held = 0) (pushed : pool.listener.pending = []) :
    pool.finished.Perm pool.accepted := by
  rw [← Multiset.coe_eq_coe, sound.once, held_of_idle idle, empty, pushed]
  simp

theorem Sound.jobs_of_left {pool : Pool n Job} (positive : 0 < n) (sound : Sound pool)
    (left : ∀ i, pool.workers i = .exited) : pool.jobs = [] :=
  (sound.shutdown.drained ⟨0, positive⟩ (left _)).2

theorem Sound.finished_of_returned {pool : Pool n Job} (positive : 0 < n) (sound : Sound pool)
    (returned : pool.listener = .returned) : pool.finished.Perm pool.accepted := by
  have left := sound.shutdown.left returned
  refine sound.finished_perm (sound.jobs_of_left positive left) (fun i => ?_) ?_
  · rw [left i]
    rfl
  · rw [returned]
    rfl

theorem threadPoolCount_pos (hardware : Nat) : 0 < threadPoolCount hardware :=
  lt_of_lt_of_le (by decide) (le_max_left 8 _)

/-- The pool is safe in every interleaving. -/
theorem safe_of_reachable (hardware : Nat) {pool : Pool (threadPoolCount hardware) Job}
    (reachable : Reachable pool) : Safe pool := by
  have positive := threadPoolCount_pos hardware
  have sound := sound_of_reachable positive reachable
  refine ⟨?_, ?_, sound.once, ?_⟩
  · intro i looking
    have owned := (sound.mutex.worker i).mp looking
    refine ⟨fun locked => ?_, fun j other => ?_⟩
    · have also := sound.mutex.listener.mp locked
      rw [owned] at also
      simp at also
    · have also := (sound.mutex.worker j).mp other
      rw [owned] at also
      simpa using also.symm
  · rw [sound.queue.order, List.append_assoc]
    exact List.prefix_append _ _
  · intro returned
    exact ⟨sound.finished_of_returned positive returned, sound.shutdown.left returned⟩

/-- A pool that is shut down behind its only job, with this number of workers behind their loops. -/
def closing (n gone : Nat) (place : Listener Nat) : Pool n Nat where
  jobs := []
  shutdown := true
  owner := none
  workers := fun i => if i < gone then .exited else .ready
  listener := place
  accepted := [7]
  taken := [7]
  finished := [7]

/-- A job is accepted, queued, taken and called, and the call returns while the pool is stopped. -/
theorem reachable_closing (positive : 0 < n) : Reachable (closing n 0 (.joining 0)) := by
  let i : Fin n := ⟨0, positive⟩
  have accepted :
      Reachable { Pool.fresh n Nat with listener := .enqueueing 7, accepted := [7] } :=
    .step (.start rfl) (.inl (.accept _ 7 rfl))
  have locked := accepted.step (.inr (.lockEnqueue _ 7 rfl rfl))
  have pushed := locked.step (.inr (.push _ 7 rfl))
  have notified := pushed.step (.inr (.notifyNone _ rfl (by simp [Pool.fresh])))
  have enqueued := notified.step (.inr (.unlockEnqueue _ rfl))
  have checking := enqueued.step (.inr (.lock _ i rfl rfl))
  have taken := checking.step (.inr (.take _ i 7 [] (by simp) rfl))
  have stopping := taken.step (.inl (.stop _ rfl))
  have flagging := stopping.step (.inr (.lockShutdown _ rfl rfl))
  have flagged := flagging.step (.inr (.flag _ rfl))
  have finished := flagged.step (.inr (.finish _ i 7 (by simp [Pool.move])))
  have unlocked := finished.step (.inr (.unlockShutdown _ rfl))
  have roused := unlocked.step (.inr (.notifyAll _ rfl))
  convert roused using 1
  simp [closing, Pool.move, Pool.wakeAll, Pool.fresh]

theorem reachable_closing_gone (positive : 0 < n) {gone : Nat} (bounded : gone ≤ n) :
    Reachable (closing n gone (.joining 0)) := by
  induction gone with
  | zero => exact reachable_closing positive
  | succ gone induction =>
      let i : Fin n := ⟨gone, bounded⟩
      have before := induction (Nat.le_of_succ_le bounded)
      have checking := before.step (.inr (.lock _ i (if_neg (Nat.lt_irrefl gone)) rfl))
      have left := checking.step (.inr (.exit _ i (by simp) rfl rfl))
      convert left using 1
      simp only [closing, Pool.move, Function.update_idem]
      congr 1
      funext j
      rw [Function.update_apply]
      grind

theorem reachable_closing_joined (positive : 0 < n) {joined : Nat} (bounded : joined ≤ n) :
    Reachable (closing n n (.joining joined)) := by
  induction joined with
  | zero => exact reachable_closing_gone positive le_rfl
  | succ joined induction =>
      have before := induction (Nat.le_of_succ_le bounded)
      exact before.step (.inr (.join _ ⟨joined, bounded⟩ rfl (if_pos bounded)))

/-- The pool behind its shutdown. -/
theorem safe_of_reachable_shutdown :
    Safe (closing (threadPoolCount 4) (threadPoolCount 4) .returned) :=
  safe_of_reachable 4
    ((reachable_closing_joined (threadPoolCount_pos 4) le_rfl).step (.inr (.finishShutdown _ rfl)))

/-- Every accepted connection is processed: from every reachable state, whatever order the
threads take, they come to rest as soon as the calls of all jobs return, and then all accepted
jobs are finished. -/
theorem inevitable_finished (hardware : Nat) {pool : Pool (threadPoolCount hardware) Job}
    (reachable : Reachable pool) :
    Transition.Inevitable Internal
      (fun last => Quiet last ∧ last.finished.Perm last.accepted) pool := by
  have positive := threadPoolCount_pos hardware
  apply Transition.inevitable_of_measure Pool.measure
    (fun before after sound step => sound.step positive (.inr step))
    (fun before after _ step => measure_lt step) ?_
    (sound_of_reachable positive reachable)
  intro last sound unfinished
  apply sound.progress
  intro quiet
  refine unfinished ⟨quiet, ?_⟩
  rcases quiet with ⟨accepting, empty, asleep⟩ | returned
  · refine sound.finished_perm empty (fun i => ?_) ?_
    · rw [asleep i]
      rfl
    · rw [accepting]
      rfl
  · exact sound.finished_of_returned positive returned

theorem inevitable_finished_accept :
    Transition.Inevitable Internal
      (fun last => Quiet last ∧ last.finished.Perm last.accepted)
      { Pool.fresh (threadPoolCount 4) Nat with
        listener := .enqueueing 7, accepted := [7] } :=
  inevitable_finished 4 (.step (.start rfl) (.inl (.accept _ 7 rfl)))

end BoostDocSearcher.ThreadPool
