import Mathlib.Data.List.Basic
import Mathlib.Data.List.Perm.Basic
import Lineage.Command.Documents

/-!
# Worker pools lose nothing and do nothing twice

Whatever the schedule, a job is at each moment in one place: in the queue, with the worker that took
it, or in the log of the jobs worked on; and a result is with the worker that made it or among those
sent. `Pool.Balanced` keeps these accounts, every move keeps it, and so does every run. When all
workers have ended, the accounts say what the collected results are.

## Key results

- `Pool.step_move`: what a move can do
- `Pool.Balanced.run`: the accounts of a pool balance along every schedule
- `Pool.exists_over`: every run can be brought to its end
- `Pool.Balanced.collect_eq`: at the end the collected results are those of the jobs, in their order
- `analyses_schedule_free`: the analyses of several files do not depend on workers and schedule
-/

namespace Lineage.Command

variable {α β : Type}

namespace Worker

/-- The job that the worker has taken and not worked on yet. -/
def taken : Worker α β → List (Nat × α)
  | busy index job => [(index, job)]
  | _ => []

/-- The result that the worker has not sent yet. -/
def ready : Worker α β → List (Nat × β)
  | done index result => [(index, result)]
  | _ => []

/-- How many moves the worker has before it, but for those that a job still in the queue
    will ask for. -/
def moves : Worker α β → Nat
  | idle => 1
  | busy _ _ => 3
  | done _ _ => 2
  | ended => 0

end Worker

namespace Pool

/-! ### Moves -/

/-- What a move can do: a worker finds the queue empty and ends, or takes one of its jobs, works
    on the job it has taken, or sends its result. Nothing changes in the turn of a worker that
    has ended or that is none of the pool, and in a turn that offers a job from behind the end
    of the queue. -/
inductive Move (work : α → β) (pool : Pool α β) (turn : Turn) : Pool α β → Prop
  | rest (hturn : pool.workers.length ≤ turn.worker ∨ pool.workers[turn.worker]? = some .ended ∨
      (pool.queue ≠ [] ∧ pool.queue.length ≤ turn.place)) : Move work pool turn pool
  | quit (front back : List (Worker α β)) (hplace : front.length = turn.worker)
      (hworkers : pool.workers = front ++ .idle :: back) (hqueue : pool.queue = []) :
      Move work pool turn { pool with workers := front ++ .ended :: back }
  | take (front back : List (Worker α β)) (index : Nat) (job : α) (earlier later : List (Nat × α))
      (hplace : front.length = turn.worker) (hworkers : pool.workers = front ++ .idle :: back)
      (hqueue : pool.queue = earlier ++ (index, job) :: later) :
      Move work pool turn
        { pool with queue := earlier ++ later, workers := front ++ .busy index job :: back }
  | work (front back : List (Worker α β)) (index : Nat) (job : α)
      (hplace : front.length = turn.worker) (hworkers : pool.workers = front ++
        .busy index job :: back) :
      Move work pool turn
        { pool with
          workers := front ++ .done index (work job) :: back, worked := pool.worked ++ [index] }
  | send (front back : List (Worker α β)) (index : Nat) (result : β)
      (hplace : front.length = turn.worker)
      (hworkers : pool.workers = front ++ .done index result :: back) :
      Move work pool turn
        { pool with
          workers := front ++ .idle :: back, sent := pool.sent ++ [(index, result)] }

/-- What stands at a place of a list stands between what is before it and what is after it. -/
theorem eq_take_append_cons_drop {items : List α} {place : Nat} {item : α}
    (h : items[place]? = some item) :
    items = items.take place ++ item :: items.drop (place + 1) := by
  obtain ⟨hlt, rfl⟩ := List.getElem?_eq_some_iff.mp h
  rw [List.getElem_cons_drop, List.take_append_drop]

/-- Every step is such a move. -/
theorem step_move (work : α → β) (pool : Pool α β) (turn : Turn) :
    Move work pool turn (pool.step work turn) := by
  obtain ⟨queue, workers, sent, worked⟩ := pool
  cases hworker : workers[turn.worker]? with
  | none =>
    simp only [step, hworker]
    exact .rest (.inl (List.getElem?_eq_none_iff.mp hworker))
  | some state =>
    have hlt : turn.worker < workers.length := (List.getElem?_eq_some_iff.mp hworker).1
    -- The worker stands between those before it and those after it, and a move replaces it there.
    have hsplit := eq_take_append_cons_drop hworker
    have hset : ∀ next, workers.set turn.worker next =
        workers.take turn.worker ++ next :: workers.drop (turn.worker + 1) :=
      fun next => List.set_eq_take_cons_drop next hlt
    have hplace : (workers.take turn.worker).length = turn.worker :=
      List.length_take_of_le (Nat.le_of_lt hlt)
    cases state with
    | ended =>
      simp only [step, hworker]
      exact .rest (.inr (.inl hworker))
    | idle =>
      cases hjob : queue[turn.place]? with
      | none =>
        cases queue with
        | nil =>
          simp only [step, hworker, hjob, hset, List.isEmpty_nil, if_true]
          exact .quit _ _ hplace hsplit rfl
        | cons item queue =>
          have hout := List.getElem?_eq_none_iff.mp hjob
          simp only [step, hworker, hjob, List.isEmpty_cons, Bool.false_eq_true, if_false]
          exact .rest (.inr (.inr ⟨List.cons_ne_nil _ _, hout⟩))
      | some item =>
        simp only [step, hworker, hjob, hset, List.eraseIdx_eq_take_drop_succ]
        exact .take _ _ item.1 item.2 _ _ hplace hsplit (eq_take_append_cons_drop hjob)
    | busy index job =>
      simp only [step, hworker, hset]
      exact .work _ _ index job hplace hsplit
    | done index result =>
      simp only [step, hworker, hset]
      exact .send _ _ index result hplace hsplit

variable {work : α → β} {pool next : Pool α β} {turn : Turn}

/-- The jobs not worked on yet: in the queue, or taken. -/
def waiting (pool : Pool α β) : List (Nat × α) :=
  pool.queue ++ pool.workers.flatMap Worker.taken

/-- The results there are: not sent yet, or sent. -/
def results (pool : Pool α β) : List (Nat × β) :=
  pool.workers.flatMap Worker.ready ++ pool.sent

/-- A move hands something on, or it turns one waiting job into its result and logs that. -/
theorem Move.exchange (hmove : Move work pool turn next) :
    (next.waiting.Perm pool.waiting ∧ next.results.Perm pool.results ∧ next.worked = pool.worked) ∨
    ∃ index job, pool.waiting.Perm ((index, job) :: next.waiting) ∧
      next.results.Perm ((index, work job) :: pool.results) ∧
          next.worked = pool.worked ++ [index] := by
  cases hmove with
  | rest => exact .inl ⟨.refl _, .refl _, rfl⟩
  | quit front back _ hworkers hqueue =>
    refine .inl ⟨?_, ?_, rfl⟩
    · simp only [waiting, hworkers, List.flatMap_append, List.flatMap_cons, Worker.taken,
        List.Perm.refl]
    · simp only [results, hworkers, List.flatMap_append, List.flatMap_cons, Worker.ready,
        List.Perm.refl]
  | take front back index job earlier later _ hworkers hqueue =>
    refine .inl ⟨?_, ?_, rfl⟩
    · simp only [waiting, hworkers, hqueue, List.flatMap_append, List.flatMap_cons, Worker.taken,
        List.nil_append, List.append_assoc, List.cons_append]
      -- The job moves from its place in the queue behind what is left there.
      refine List.Perm.append_left _ ?_
      rw [← List.append_assoc, ← List.append_assoc]
      exact List.perm_middle
    · simp only [results, hworkers, List.flatMap_append, List.flatMap_cons, Worker.ready,
        List.Perm.refl]
  | work front back index job _ hworkers =>
    refine .inr ⟨index, job, ?_, ?_, rfl⟩
    · simp only [waiting, hworkers, List.flatMap_append, List.flatMap_cons, Worker.taken,
        List.nil_append, List.singleton_append]
      rw [← List.append_assoc, ← List.append_assoc]
      exact List.perm_middle
    · simp only [results, hworkers, List.flatMap_append, List.flatMap_cons, Worker.ready,
        List.nil_append, List.append_assoc, List.cons_append]
      exact List.perm_middle
  | send front back index result _ hworkers =>
    refine .inl ⟨?_, ?_, rfl⟩
    · simp only [waiting, hworkers, List.flatMap_append, List.flatMap_cons, Worker.taken,
        List.Perm.refl]
    · simp only [results, hworkers, List.flatMap_append, List.flatMap_cons, Worker.ready,
        List.nil_append, List.append_assoc, List.cons_append]
      -- The result leaves its worker for the end of those sent.
      refine List.Perm.append_left _ ?_
      rw [← List.append_assoc]
      exact List.perm_append_singleton _ _

/-- A worker ends only when the queue is empty. -/
theorem Move.drained (hmove : Move work pool turn next)
    (hdrained : .ended ∈ pool.workers → pool.queue = []) (hended : .ended ∈ next.workers) :
    next.queue = [] := by
  cases hmove with
  | rest => exact hdrained hended
  | quit _ _ _ _ hqueue => exact hqueue
  | take front back index job earlier later _ hworkers hqueue =>
    -- A worker that takes a job has not ended, so whoever has ended had done so before.
    have hbefore : .ended ∈ pool.workers := by
      rw [hworkers]
      simpa using hended
    rw [hdrained hbefore] at hqueue
    simp at hqueue
  | work front back index job _ hworkers =>
    refine hdrained ?_
    rw [hworkers]
    simpa using hended
  | send front back index result _ hworkers =>
    refine hdrained ?_
    rw [hworkers]
    simpa using hended

/-! ### Accounts -/

/-- The accounts of a pool balance. Each job waits or is in the log, and just once; the jobs of the
    log are those that there are results of, one for each; a job goes by its own number, and so does
    its result; and a worker ends only when the queue is empty. -/
structure Balanced (work : α → β) (jobs : List α) (pool : Pool α β) : Prop where
  placed : (pool.waiting.map Prod.fst ++ pool.worked).Perm (List.range jobs.length)
  answered : (pool.results.map Prod.fst).Perm pool.worked
  jobs_eq : ∀ item ∈ pool.waiting, jobs[item.1]? = some item.2
  results_eq : ∀ item ∈ pool.results, jobs[item.1]?.map work = some item.2
  drained : .ended ∈ pool.workers → pool.queue = []

variable {jobs : List α}

/-- Every move keeps the accounts. -/
theorem Balanced.move (h : pool.Balanced work jobs) (hmove : Move work pool turn next) :
    next.Balanced work jobs := by
  refine ⟨?_, ?_, ?_, ?_, hmove.drained h.drained⟩
  -- A move leaves the accounts as they are, or one job is done and logged.
  all_goals rcases hmove.exchange with ⟨hwaiting, hresults, hworked⟩ | ⟨index, job, hwaiting,
    hresults, hworked⟩
  · rw [hworked]
    exact ((hwaiting.map _).append_right _).trans h.placed
  · have hlogged : (next.waiting.map Prod.fst ++ (pool.worked ++ [index])).Perm
        (index :: (next.waiting.map Prod.fst ++ pool.worked)) := by
      rw [← List.append_assoc]
      exact List.perm_append_singleton _ _
    rw [hworked]
    exact hlogged.trans (((hwaiting.map _).append_right _).symm.trans h.placed)
  · rw [hworked]
    exact (hresults.map _).trans h.answered
  · rw [hworked]
    exact (hresults.map _).trans
      ((h.answered.cons index).trans (List.perm_append_singleton _ _).symm)
  · exact fun item hitem => h.jobs_eq item (hwaiting.subset hitem)
  · exact fun item hitem => h.jobs_eq item (hwaiting.symm.subset (List.mem_cons_of_mem _ hitem))
  · exact fun item hitem => h.results_eq item (hresults.subset hitem)
  · intro item hitem
    rcases List.mem_cons.mp (hresults.subset hitem) with rfl | hbefore
    · rw [h.jobs_eq (index, job) (hwaiting.symm.subset List.mem_cons_self)]
      rfl
    · exact h.results_eq item hbefore

/-- The accounts balance along every schedule. -/
theorem Balanced.run (h : pool.Balanced work jobs) (schedule : List Turn) :
    (pool.run work schedule).Balanced work jobs := by
  induction schedule generalizing pool with
  | nil => exact h
  | cons turn rest ih => exact ih (h.move (step_move work pool turn))

/-- The numbers of the jobs are consecutive. -/
theorem map_fst_numbered (index : Nat) (jobs : List α) :
    (numbered index jobs).map Prod.fst = List.range' index jobs.length := by
  induction jobs generalizing index with
  | nil => rfl
  | cons job rest ih => rw [numbered, List.map_cons, ih, List.length_cons, List.range'_succ]

theorem map_snd_numbered (index : Nat) (jobs : List α) :
    (numbered index jobs).map Prod.snd = jobs := by
  induction jobs generalizing index with
  | nil => rfl
  | cons job rest ih => rw [numbered, List.map_cons, ih]

/-- A job goes by its place in the list of jobs. -/
theorem getElem?_of_mem_numbered {index : Nat} {item : Nat × α} (h : item ∈ numbered index jobs) :
    index ≤ item.1 ∧ jobs[item.1 - index]? = some item.2 := by
  induction jobs generalizing index with
  | nil => cases h
  | cons job rest ih =>
    rcases List.mem_cons.mp h with rfl | hrest
    · simp
    · obtain ⟨hle, hget⟩ := ih hrest
      refine ⟨by omega, ?_⟩
      rw [show item.1 - index = (item.1 - (index + 1)) + 1 by omega, List.getElem?_cons_succ]
      exact hget

/-- Before anything has moved, all jobs are in the queue. -/
theorem balanced_start (work : α → β) (jobs : List α) (workers : Nat) :
    (start jobs workers : Pool α β).Balanced work jobs := by
  have htaken : (List.replicate workers (Worker.idle : Worker α β)).flatMap Worker.taken = [] := by
    simp [Worker.taken]
  have hready : (List.replicate workers (Worker.idle : Worker α β)).flatMap Worker.ready = [] := by
    simp [Worker.ready]
  have hwaiting : (start jobs workers : Pool α β).waiting = numbered 0 jobs := by
    rw [waiting, start, htaken, List.append_nil]
  have hresults : (start jobs workers : Pool α β).results = [] := by
    rw [results, start, hready, List.append_nil]
  constructor
  case placed => rw [hwaiting, map_fst_numbered, start, List.append_nil, List.range_eq_range']
  case answered => rw [hresults]; exact .nil
  case jobs_eq =>
    intro item hitem
    rw [hwaiting] at hitem
    exact (getElem?_of_mem_numbered hitem).2
  case results_eq =>
    intro item hitem
    rw [hresults] at hitem
    cases hitem
  case drained =>
    intro hended
    cases List.eq_of_mem_replicate hended

/-! ### The end of a run -/

/-- A pool has as many workers after a move as before. -/
theorem Move.length_workers (hmove : Move work pool turn next) :
    next.workers.length = pool.workers.length := by
  cases hmove with
  | rest => rfl
  | quit front back _ hworkers | take front back _ _ _ _ _ hworkers | work front back _ _ _ hworkers
  | send front back _ _ _ hworkers => simp [hworkers]

theorem length_workers_run (work : α → β) (pool : Pool α β) (schedule : List Turn) :
    (pool.run work schedule).workers.length = pool.workers.length := by
  induction schedule generalizing pool with
  | nil => rfl
  | cons turn rest ih => exact (ih _).trans (step_move work pool turn).length_workers

theorem isOver_iff : pool.isOver = true ↔ ∀ state ∈ pool.workers, state = .ended := by
  rw [isOver, List.all_eq_true]
  refine forall₂_congr fun state _ => ?_
  cases state <;> simp

/-- The moves that the given workers have before them. -/
def movesOf : List (Worker α β) → Nat
  | [] => 0
  | worker :: rest => worker.moves + movesOf rest

theorem movesOf_append (front back : List (Worker α β)) :
    movesOf (front ++ back) = movesOf front + movesOf back := by
  induction front with
  | nil => exact (Nat.zero_add _).symm
  | cons worker rest ih => rw [List.cons_append, movesOf, movesOf, ih, Nat.add_assoc]

/-- The number of moves until all workers have ended. A job in the queue asks for three. -/
def remaining (pool : Pool α β) : Nat :=
  3 * pool.queue.length + movesOf pool.workers

/-- A move of a worker that has not ended brings the end nearer, if it is offered a job of the queue
    where there is one. -/
theorem Move.remaining_lt (hmove : Move work pool turn next) {state : Worker α β}
    (hstate : pool.workers[turn.worker]? = some state) (hawake : state ≠ .ended)
    (hjob : pool.queue ≠ [] → turn.place < pool.queue.length) :
    next.remaining + 1 = pool.remaining := by
  cases hmove with
  | rest hturn =>
    rcases hturn with hout | hended | ⟨hqueue, hbehind⟩
    · rw [List.getElem?_eq_none_iff.mpr hout] at hstate
      cases hstate
    · exact absurd (Option.some.inj (hstate.symm.trans hended)) hawake
    · exact absurd (hjob hqueue) (Nat.not_lt.mpr hbehind)
  | quit front back _ hworkers hqueue =>
    simp only [remaining, hworkers, movesOf_append, movesOf, Worker.moves]
    omega
  | take front back index job earlier later _ hworkers hqueue =>
    simp only [remaining, hworkers, hqueue, movesOf_append, movesOf, Worker.moves,
      List.length_append, List.length_cons]
    omega
  | work front back index job _ hworkers =>
    simp only [remaining, hworkers, movesOf_append, movesOf, Worker.moves]
    omega
  | send front back index result _ hworkers =>
    simp only [remaining, hworkers, movesOf_append, movesOf, Worker.moves]
    omega

/-- As long as a pool is not over, one of its workers has a move that brings the end nearer. The
    first job of the queue will do. -/
theorem exists_remaining_lt (work : α → β) (hover : pool.isOver ≠ true) :
    ∃ worker < pool.workers.length, (pool.step work ⟨worker, 0⟩).remaining + 1 =
      pool.remaining := by
  rw [Ne, isOver_iff] at hover
  push Not at hover
  obtain ⟨state, hmem, hawake⟩ := hover
  obtain ⟨worker, hlt, rfl⟩ := List.getElem_of_mem hmem
  exact ⟨worker, hlt, (step_move work pool ⟨worker, 0⟩).remaining_lt
    (List.getElem?_eq_getElem hlt) hawake List.length_pos_iff.mpr⟩

/-- Every run can be brought to its end. -/
theorem exists_over (work : α → β) (pool : Pool α β) :
    ∃ schedule, (pool.run work schedule).isOver = true := by
  induction hremaining : pool.remaining using Nat.strongRecOn generalizing pool with
  | ind moves ih =>
    by_cases hover : pool.isOver = true
    · exact ⟨[], hover⟩
    · obtain ⟨worker, _, hnear⟩ := exists_remaining_lt work hover
      obtain ⟨rest, hrest⟩ := ih _ (by omega) (pool.step work ⟨worker, 0⟩) rfl
      exact ⟨⟨worker, 0⟩ :: rest, hrest⟩

/-- A pool that is over does not change. -/
theorem run_of_isOver (work : α → β) (hover : pool.isOver = true) (schedule : List Turn) :
    pool.run work schedule = pool := by
  induction schedule with
  | nil => rfl
  | cons turn rest ih =>
    have hstill : pool.step work turn = pool := by
      cases hworker : pool.workers[turn.worker]? with
      | none => rw [step, hworker]
      | some state =>
        obtain rfl := isOver_iff.mp hover state (List.mem_of_getElem? hworker)
        rw [step, hworker]
    rw [run, List.foldl_cons, hstill]
    exact ih

/-- A single worker comes to the end by itself. -/
theorem isOver_run_alone (work : α → β) {moves : Nat} (halone : pool.workers.length = 1)
    (henough : pool.remaining ≤ moves) :
    (pool.run work (List.replicate moves ⟨0, 0⟩)).isOver = true := by
  induction moves generalizing pool with
  | zero =>
    by_contra hover
    obtain ⟨_, _, hnear⟩ : ∃ worker < pool.workers.length,
        (pool.step work ⟨worker, 0⟩).remaining + 1 = pool.remaining :=
      exists_remaining_lt work hover
    omega
  | succ moves ih =>
    by_cases hover : pool.isOver = true
    · rwa [run_of_isOver work hover]
    · obtain ⟨worker, hlt, hnear⟩ := exists_remaining_lt work hover
      obtain rfl : worker = 0 := by omega
      exact ih ((step_move work pool ⟨0, 0⟩).length_workers.trans halone) (by omega)

/-! ### The results of a run -/

/-- When all workers have ended, nothing waits any more, and all results are sent. -/
theorem Balanced.over (h : pool.Balanced work jobs) (hworkers : 0 < pool.workers.length)
    (hover : pool.isOver = true) : pool.waiting = [] ∧ pool.results = pool.sent := by
  have hended := isOver_iff.mp hover
  have htaken : pool.workers.flatMap Worker.taken = [] := by
    rw [List.flatMap_eq_nil_iff]
    intro state hstate
    rw [hended state hstate]
    rfl
  have hready : pool.workers.flatMap Worker.ready = [] := by
    rw [List.flatMap_eq_nil_iff]
    intro state hstate
    rw [hended state hstate]
    rfl
  have hfirst := List.getElem_mem hworkers
  rw [hended _ hfirst] at hfirst
  rw [waiting, results, htaken, hready, h.drained hfirst]
  exact ⟨rfl, rfl⟩

/-- When all workers have ended, each job has been worked on just once. -/
theorem Balanced.worked_perm (h : pool.Balanced work jobs) (hworkers : 0 < pool.workers.length)
    (hover : pool.isOver = true) : pool.worked.Perm (List.range jobs.length) := by
  have hplaced := h.placed
  rwa [(h.over hworkers hover).1, List.map_nil, List.nil_append] at hplaced

/-- When all workers have ended, the collected results are those of the jobs, in the order of the
    jobs. Nothing is missing. -/
theorem Balanced.collect_eq (h : pool.Balanced work jobs) (hworkers : 0 < pool.workers.length)
    (hover : pool.isOver = true) (missing : α → β) :
    collect missing jobs pool.sent = jobs.map fun job => (job, work job) := by
  obtain ⟨_, hsent⟩ := h.over hworkers hover
  have hlookup : ∀ item ∈ numbered 0 jobs, pool.sent.reverse.lookup item.1 =
      some (work item.2) := by
    intro item hitem
    have hjob : jobs[item.1]? = some item.2 := (getElem?_of_mem_numbered hitem).2
    -- The number is in the log, so there is a result for it; and whichever is found is that of the
    -- job.
    have hindex : item.1 ∈ pool.sent.map Prod.fst := by
      rw [← hsent]
      refine (h.answered.trans (h.worked_perm hworkers hover)).symm.subset ?_
      exact List.mem_range.mpr (List.getElem?_eq_some_iff.mp hjob).1
    obtain ⟨result, hresult⟩ : ∃ result, pool.sent.reverse.lookup item.1 = some result := by
      obtain ⟨found, hfound, hsame⟩ := List.mem_map.mp hindex
      refine Option.isSome_iff_exists.mp
        (List.lookup_isSome_iff.mpr ⟨found, List.mem_reverse.mpr hfound, ?_⟩)
      rw [hsame]
      exact beq_self_eq_true _
    obtain ⟨front, back, heq, _⟩ := List.lookup_eq_some_iff.mp hresult
    have hmem : (item.1, result) ∈ pool.results := by
      rw [hsent, ← List.mem_reverse, heq]
      simp
    rw [hresult, ← h.results_eq _ hmem, hjob]
    rfl
  calc collect missing jobs pool.sent
      = (numbered 0 jobs).map fun item => (item.2, work item.2) := by
        refine List.map_congr_left fun item hitem => ?_
        show (item.2, (pool.sent.reverse.lookup item.1).getD (missing item.2)) = _
        rw [hlookup item hitem, Option.getD_some]
    _ = ((numbered 0 jobs).map Prod.snd).map fun job => (job, work job) := by rw [List.map_map]; rfl
    _ = jobs.map fun job => (job, work job) := by rw [map_snd_numbered]

end Pool

/-- One worker does all jobs. -/
theorem workAll_eq (work missing : α → β) (jobs : List α) :
    workAll work missing jobs = jobs.map fun job => (job, work job) := by
  have hmoves : (Pool.start jobs 1 : Pool α β).remaining = 3 * jobs.length + 1 := by
    rw [Pool.remaining, Pool.start, ← List.length_map Prod.fst, Pool.map_fst_numbered,
      List.length_range']
    rfl
  have hlength :=
    Pool.length_workers_run work (Pool.start jobs 1) (List.replicate (3 * jobs.length + 1) ⟨0, 0⟩)
  exact ((Pool.balanced_start work jobs 1).run _).collect_eq (by rw [hlength]; exact Nat.one_pos)
    (Pool.isOver_run_alone work rfl (Nat.le_of_eq hmoves)) missing

/-- The workers that analyze files, after the moves of a schedule. -/
def analysisPool (files : Files) (dialect : Dialect) (schema : Schema) (paths : List String)
    (workers : Nat) (schedule : List Turn) : Pool String (Except LoadError Analysis) :=
  (Pool.start paths workers).run (analyzeFile files dialect schema) schedule

/-- The analyses of several files depend neither on the number of workers nor on their
    schedule, and the files may be handed out in any order. Every run can be brought to its
    end, and when all workers have ended, each file has been analyzed just once and the
    collected results are the analyses of the files, in their order; whatever was to stand for
    a missing one, none is missing. -/
theorem analyses_schedule_free (files : Files) (dialect : Dialect) (schema : Schema)
    (paths : List String) {workers : Nat} (hworkers : 0 < workers) (schedule : List Turn) :
    (∃ rest, (analysisPool files dialect schema paths workers (schedule ++ rest)).isOver = true) ∧
    ((analysisPool files dialect schema paths workers schedule).isOver = true →
      (analysisPool files dialect schema paths workers schedule).worked.Perm
        (List.range paths.length) ∧
      ∀ missing,
        Pool.collect missing paths (analysisPool files dialect schema paths workers schedule).sent =
          paths.map fun path => (path, analyzeFile files dialect schema path)) ∧
    analyzeFiles files dialect schema paths =
      paths.map fun path => (path, analyzeFile files dialect schema path) := by
  refine ⟨?_, fun hover => ?_, workAll_eq _ _ _⟩
  · obtain ⟨rest, hrest⟩ := Pool.exists_over (analyzeFile files dialect schema)
      (analysisPool files dialect schema paths workers schedule)
    refine ⟨rest, ?_⟩
    rwa [analysisPool, Pool.run, List.foldl_append]
  · have hbalanced :=
      (Pool.balanced_start (analyzeFile files dialect schema) paths workers).run schedule
    have hlength : 0 <
        (analysisPool files dialect schema paths workers schedule).workers.length := by
      rw [analysisPool, Pool.length_workers_run, Pool.start, List.length_replicate]
      exact hworkers
    exact ⟨hbalanced.worked_perm hlength hover, hbalanced.collect_eq hlength hover⟩

/-- The first worker gets the last of three files, and while it is busy the other one does the other
    two, the second before the first. -/
def overtaken : List Turn :=
  [⟨0, 2⟩, ⟨1, 1⟩, ⟨1, 0⟩, ⟨1, 0⟩, ⟨1, 0⟩, ⟨1, 0⟩, ⟨1, 0⟩, ⟨1, 0⟩, ⟨0, 0⟩, ⟨0, 0⟩, ⟨0, 0⟩]

/-- Two workers analyze three files, of which there is only one, and the results do not come in the
    order of the files. -/
theorem analyses_schedule_free_overtaken :
    let files : Files := ⟨[(["b"], "x")]⟩
    let pool := analysisPool files .plsql .empty ["a", "b", "c"] 2 overtaken
    pool.sent.map Prod.fst = [1, 0, 2] ∧
    Pool.collect lostFile ["a", "b", "c"] pool.sent =
      ["a", "b", "c"].map fun path => (path, analyzeFile files .plsql .empty path) :=
  ⟨rfl, ((analyses_schedule_free ⟨[(["b"], "x")]⟩ .plsql .empty ["a", "b", "c"] Nat.two_pos
    overtaken).2.1 rfl).2 lostFile⟩

end Lineage.Command
