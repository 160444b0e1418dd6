/-
  SylarCot.Log.SharedLogger
  ─────────────────────────
  A `Logger` under any number of threads.

  `addAppender`, `delAppender` and `clearAppender` change `m_appenders` under the
  mutex; `log` walks along the list without it.  The list is a `std::list`: an
  iterator stands on a node, which stays where it is until it is freed.  Nodes are
  numbered as they are allocated, and no number is given twice.

  `m_appenders` are the nodes that the header of the list leads to, `nodes` those in
  memory.  The two part while a change is under way: `erase` takes its node out of the
  chain and then frees it, `clear` frees the nodes one by one, from the front, and only
  then resets the header.  A node that has been taken out keeps its pointer to the next
  one: as its mutex is held until it is freed, this is the first node of the chain
  behind it.

  A step reads or writes one pointer that another thread may see, or delivers to one
  appender, and every thread sees the steps in one order.  `touchedErased` records that
  an iterator has been used whose node is freed, and `visited` what the last or current
  `log` of a thread has delivered.

    • `moves_of_step` — everything a step can do;
    • `solo_log`, `solo_edit` — what runs alone is what `Logger` does.
-/
import Mathlib.Data.Fintype.Basic
import SylarCot.Library.Ownership
import SylarCot.Library.Execution
import SylarCot.Library.Walk
import SylarCot.Log.Logger

namespace SylarCot.Log

open Library

variable {Tid AppenderId Sink : Type*}

/-! ## §1. States and labels. -/

/-- The members that change `m_appenders`. -/
inductive Edit (AppenderId : Type*) where
  | addAppender (appender : AppenderId)
  | delAppender (appender : AppenderId)
  | clearAppender
  deriving Repr, DecidableEq

/-- Where a thread is in a call. -/
inductive LogPc (AppenderId : Type*) where
  | idle
  -- void Logger::log(LogEvent::Sptr event): level test, begin, `i->log(event)`, `++it`
  | test (event : LogEvent)
  | first (event : LogEvent)
  | deliver (event : LogEvent) (node : Nat)
  | next (event : LogEvent) (node : Nat)
  -- the other members: guard, change, end of scope
  | lock (op : Edit AppenderId)
  | edit (op : Edit AppenderId)
  /-- `erase` has taken the node out of the chain. -/
  | free (node : Nat)
  /-- `clear` has yet to free these nodes. -/
  | clear (cur : List (Nat × AppenderId))
  | unlock

/-- `Logger` and the threads that use it. -/
structure SharedLogger (Tid AppenderId : Type*) where
  m_level : Level := .DEBUG
  m_appenders : List (Nat × AppenderId) := []
  nodes : List (Nat × AppenderId) := []
  /-- How many nodes have been allocated. -/
  allocated : Nat := 0
  m_mutex : Option Tid := none
  pc : Tid → LogPc AppenderId := fun _ => .idle
  visited : Tid → List (Nat × AppenderId) := fun _ => []
  touchedErased : Bool := false

/-- A thread makes a call, or takes one step of the call it is in. -/
inductive LogLabel (Tid AppenderId : Type*) where
  | log (t : Tid) (event : LogEvent)
  | edit (t : Tid) (op : Edit AppenderId)
  | setLevel (level : Level)
  | run (t : Tid)

namespace SharedLogger

/-! ## §2. Steps. -/

/-- The loop of `Logger::delAppender` on the nodes. -/
def eraseNode [DecidableEq AppenderId] (appender : AppenderId) :
    List (Nat × AppenderId) → List (Nat × AppenderId)
  | [] => []
  | it :: rest => if it.2 = appender then rest else it :: eraseNode appender rest

/-- The nodes in memory after one has been freed. -/
def freeNode (node : Nat) (nodes : List (Nat × AppenderId)) : List (Nat × AppenderId) :=
  nodes.filter fun it => it.1 ≠ node

/-- The node that is freed next, and where the change goes on. -/
def frees : LogPc AppenderId → Option (Nat × LogPc AppenderId)
  | .free node => some (node, .unlock)
  | .clear (it :: rest) => some (it.1, .clear rest)
  | _ => none

/-- Where the iteration goes on: at a node, or behind the loop. -/
def iterate (event : LogEvent) : Option (Nat × AppenderId) → LogPc AppenderId
  | none => .idle
  | some it => .deliver event it.1

variable [DecidableEq Tid]

/-- Thread `t` moves on to `p`. -/
def goto (s : SharedLogger Tid AppenderId) (t : Tid) (p : LogPc AppenderId) :
    SharedLogger Tid AppenderId :=
  { s with pc := Function.update s.pc t p }

/-- What the `log` of `t` has delivered. -/
def deliver (s : SharedLogger Tid AppenderId) (t : Tid) (nodes : List (Nat × AppenderId)) :
    SharedLogger Tid AppenderId :=
  { s with visited := Function.update s.visited t nodes }

/-- Thread `t` frees a node and moves on to `p`. -/
def free (s : SharedLogger Tid AppenderId) (t : Tid) (node : Nat) (p : LogPc AppenderId) :
    SharedLogger Tid AppenderId :=
  { s.goto t p with nodes := freeNode node s.nodes }

/-- `m_appenders.push_back(appender)`: the new node is hooked in. -/
def append (s : SharedLogger Tid AppenderId) (t : Tid) (appender : AppenderId) :
    SharedLogger Tid AppenderId :=
  { s.goto t .unlock with
    m_appenders := s.m_appenders ++ [(s.allocated, appender)]
    nodes := s.nodes ++ [(s.allocated, appender)]
    allocated := s.allocated + 1 }

variable [DecidableEq AppenderId]

/-- `m_appenders.erase(it)`, first half: the node is taken out of the chain. -/
def unhook (s : SharedLogger Tid AppenderId) (t : Tid) (appender : AppenderId) (node : Nat) :
    SharedLogger Tid AppenderId :=
  { s.goto t (.free node) with m_appenders := eraseNode appender s.m_appenders }

/-- The first step of a change. -/
def change (s : SharedLogger Tid AppenderId) (t : Tid) : Edit AppenderId → SharedLogger Tid AppenderId
  | .addAppender appender => s.append t appender
  | .delAppender appender =>
      match s.m_appenders.find? (fun it => it.2 = appender) with
      | some it => s.unhook t appender it.1
      | none => s.goto t .unlock
  | .clearAppender => s.goto t (.clear s.m_appenders)

/-- One step of the thread `t`. -/
def runThread (s : SharedLogger Tid AppenderId) (t : Tid) : Option (SharedLogger Tid AppenderId) :=
  match s.pc t with
  | .idle => none
  | .test event =>
      if event.getLevel ≤ s.m_level then some (s.goto t (.first event)) else some (s.goto t .idle)
  | .first event => some (s.goto t (iterate event s.m_appenders.head?))
  | .deliver event node =>
      match s.nodes.find? (fun it => it.1 = node) with
      | some it => some ((s.goto t (.next event node)).deliver t (s.visited t ++ [it]))
      | none => some { s.goto t (.next event node) with touchedErased := true }
  | .next event node =>
      match s.nodes.find? (fun it => it.1 = node) with
      | some _ => some (s.goto t (iterate event (after node s.m_appenders).head?))
      | none => some { s.goto t .idle with touchedErased := true }
  | .lock op => if s.m_mutex.isNone then some { s.goto t (.edit op) with m_mutex := some t } else none
  | .edit op => some (s.change t op)
  | .free node => some (s.free t node .unlock)
  | .clear (it :: rest) => some (s.free t it.1 (.clear rest))
  | .clear [] => some { s.goto t .unlock with m_appenders := [] }
  | .unlock => some { s.goto t .idle with m_mutex := none }

/-- One step of the system. -/
def step (s : SharedLogger Tid AppenderId) :
    LogLabel Tid AppenderId → Option (SharedLogger Tid AppenderId)
  | .log t event =>
      match s.pc t with
      | .idle => some ((s.goto t (.test event)).deliver t [])
      | _ => none
  | .edit t op =>
      match s.pc t with
      | .idle => some (s.goto t (.lock op))
      | _ => none
  -- not under the mutex
  | .setLevel level => some { s with m_level := level }
  | .run t => s.runThread t

/-! ## §3. Everything a step can do. -/

/-- **The moves of the system.** -/
inductive Moves (s : SharedLogger Tid AppenderId) :
    LogLabel Tid AppenderId → SharedLogger Tid AppenderId → Prop where
  | log (t : Tid) (event : LogEvent) (hpc : s.pc t = .idle) :
      Moves s (.log t event) ((s.goto t (.test event)).deliver t [])
  | call (t : Tid) (op : Edit AppenderId) (hpc : s.pc t = .idle) :
      Moves s (.edit t op) (s.goto t (.lock op))
  | setLevel (level : Level) : Moves s (.setLevel level) { s with m_level := level }
  | pass (t : Tid) (event : LogEvent) (hpc : s.pc t = .test event)
      (hlevel : event.getLevel ≤ s.m_level) : Moves s (.run t) (s.goto t (.first event))
  | drop (t : Tid) (event : LogEvent) (hpc : s.pc t = .test event)
      (hlevel : ¬ event.getLevel ≤ s.m_level) : Moves s (.run t) (s.goto t .idle)
  | first (t : Tid) (event : LogEvent) (hpc : s.pc t = .first event) :
      Moves s (.run t) (s.goto t (iterate event s.m_appenders.head?))
  | deliver (t : Tid) (event : LogEvent) (it : Nat × AppenderId) (hpc : s.pc t = .deliver event it.1)
      (hit : it ∈ s.nodes) :
      Moves s (.run t) ((s.goto t (.next event it.1)).deliver t (s.visited t ++ [it]))
  | deliverErased (t : Tid) (event : LogEvent) (node : Nat) (hpc : s.pc t = .deliver event node)
      (hnode : ∀ it ∈ s.nodes, it.1 ≠ node) :
      Moves s (.run t) { s.goto t (.next event node) with touchedErased := true }
  | next (t : Tid) (event : LogEvent) (it : Nat × AppenderId) (hpc : s.pc t = .next event it.1)
      (hit : it ∈ s.nodes) :
      Moves s (.run t) (s.goto t (iterate event (after it.1 s.m_appenders).head?))
  | nextErased (t : Tid) (event : LogEvent) (node : Nat) (hpc : s.pc t = .next event node)
      (hnode : ∀ it ∈ s.nodes, it.1 ≠ node) :
      Moves s (.run t) { s.goto t .idle with touchedErased := true }
  | lock (t : Tid) (op : Edit AppenderId) (hpc : s.pc t = .lock op) (hfree : s.m_mutex = none) :
      Moves s (.run t) { s.goto t (.edit op) with m_mutex := some t }
  | append (t : Tid) (appender : AppenderId) (hpc : s.pc t = .edit (.addAppender appender)) :
      Moves s (.run t) (s.append t appender)
  | unhook (t : Tid) (appender : AppenderId) (it : Nat × AppenderId)
      (hpc : s.pc t = .edit (.delAppender appender))
      (hfind : s.m_appenders.find? (fun it => it.2 = appender) = some it) :
      Moves s (.run t) (s.unhook t appender it.1)
  | notThere (t : Tid) (appender : AppenderId) (hpc : s.pc t = .edit (.delAppender appender))
      (hfind : s.m_appenders.find? (fun it => it.2 = appender) = none) :
      Moves s (.run t) (s.goto t .unlock)
  | clear (t : Tid) (hpc : s.pc t = .edit .clearAppender) :
      Moves s (.run t) (s.goto t (.clear s.m_appenders))
  | free (t : Tid) (node : Nat) (p : LogPc AppenderId) (hpc : frees (s.pc t) = some (node, p)) :
      Moves s (.run t) (s.free t node p)
  | reset (t : Tid) (hpc : s.pc t = .clear []) :
      Moves s (.run t) { s.goto t .unlock with m_appenders := [] }
  | unlock (t : Tid) (hpc : s.pc t = .unlock) :
      Moves s (.run t) { s.goto t .idle with m_mutex := none }

variable {s s' : SharedLogger Tid AppenderId}

omit [DecidableEq Tid] [DecidableEq AppenderId] in
/-- The node of a number, if it is still there. -/
theorem find_node (nodes : List (Nat × AppenderId)) (node : Nat) :
    (∃ it ∈ nodes, it.1 = node ∧ nodes.find? (fun it : Nat × AppenderId => it.1 = node) = some it) ∨
      ((∀ it ∈ nodes, it.1 ≠ node) ∧ nodes.find? (fun it : Nat × AppenderId => it.1 = node) = none) := by
  cases hfind : nodes.find? (fun it : Nat × AppenderId => it.1 = node) with
  | some it =>
      exact .inl ⟨it, List.mem_of_find?_eq_some hfind,
        of_decide_eq_true (List.find?_some (p := fun it : Nat × AppenderId => decide (it.1 = node)) hfind), rfl⟩
  | none =>
      refine .inr ⟨?_, rfl⟩
      intro it hit
      simpa using List.find?_eq_none.mp hfind it hit

/-- The first step of a change, for each member. -/
theorem moves_of_change {t : Tid} (op : Edit AppenderId) (hpc : s.pc t = .edit op) :
    Moves s (.run t) (s.change t op) := by
  cases op with
  | addAppender appender => exact .append t appender hpc
  | delAppender appender =>
      cases hfind : s.m_appenders.find? (fun it => it.2 = appender) with
      | some it =>
          simp only [change, hfind]
          exact .unhook t appender it hpc hfind
      | none =>
          simp only [change, hfind]
          exact .notThere t appender hpc hfind
  | clearAppender => exact .clear t hpc

theorem runThread_edit {t : Tid} {op : Edit AppenderId} (hpc : s.pc t = .edit op) :
    s.runThread t = some (s.change t op) := by
  unfold runThread
  simp only [hpc]

theorem runThread_free {t : Tid} {node : Nat} {p : LogPc AppenderId}
    (hpc : frees (s.pc t) = some (node, p)) : s.runThread t = some (s.free t node p) := by
  unfold runThread
  unfold frees at hpc
  split at hpc <;> cases hpc <;> simp only [*]

theorem moves_of_runThread {t : Tid} (h : s.runThread t = some s') : Moves s (.run t) s' := by
  unfold runThread at h
  cases hpc : s.pc t with
  | idle =>
      simp only [hpc] at h
      cases h
  | test event =>
      simp only [hpc] at h
      by_cases hlevel : event.getLevel ≤ s.m_level
      · rw [if_pos hlevel] at h
        cases h
        exact .pass t event hpc hlevel
      · rw [if_neg hlevel] at h
        cases h
        exact .drop t event hpc hlevel
  | first event =>
      simp only [hpc] at h
      cases h
      exact .first t event hpc
  | deliver event node =>
      simp only [hpc] at h
      obtain ⟨it, hit, rfl, hfind⟩ | ⟨hnode, hfind⟩ := find_node s.nodes node
      · rw [hfind] at h
        cases h
        exact .deliver t event it hpc hit
      · rw [hfind] at h
        cases h
        exact .deliverErased t event node hpc hnode
  | next event node =>
      simp only [hpc] at h
      obtain ⟨it, hit, rfl, hfind⟩ | ⟨hnode, hfind⟩ := find_node s.nodes node
      · rw [hfind] at h
        cases h
        exact .next t event it hpc hit
      · rw [hfind] at h
        cases h
        exact .nextErased t event node hpc hnode
  | lock op =>
      simp only [hpc] at h
      obtain ⟨hfree, hs⟩ := Option.ite_none_right_eq_some.mp h
      cases hs
      exact .lock t op hpc (Option.isNone_iff_eq_none.mp hfree)
  | edit op =>
      simp only [hpc] at h
      cases h
      exact moves_of_change op hpc
  | free node =>
      simp only [hpc] at h
      cases h
      exact .free t node .unlock (congrArg frees hpc)
  | clear cur =>
      cases cur with
      | nil =>
          simp only [hpc] at h
          cases h
          exact .reset t hpc
      | cons it rest =>
          simp only [hpc] at h
          cases h
          exact .free t it.1 (.clear rest) (congrArg frees hpc)
  | unlock =>
      simp only [hpc] at h
      cases h
      exact .unlock t hpc

/-- **Every step is one of the moves.** -/
theorem moves_of_step {a : LogLabel Tid AppenderId} (h : step s a = some s') : Moves s a s' := by
  cases a with
  | log t event =>
      cases hpc : s.pc t with
      | idle =>
          simp only [step, hpc] at h
          cases h
          exact .log t event hpc
      | _ =>
          simp only [step, hpc] at h
          cases h
  | edit t op =>
      cases hpc : s.pc t with
      | idle =>
          simp only [step, hpc] at h
          cases h
          exact .call t op hpc
      | _ =>
          simp only [step, hpc] at h
          cases h
  | setLevel level =>
      cases h
      exact .setLevel level
  | run t => exact moves_of_runThread h

/-! ## §4. Nodes that are taken out. -/

omit [DecidableEq Tid] [DecidableEq AppenderId] in
/-- The first node. -/
theorem freeNode_head {it : Nat × AppenderId} {rest : List (Nat × AppenderId)}
    (h : Ordered (it :: rest)) : freeNode it.1 (it :: rest) = rest := by
  obtain ⟨hhead, -⟩ := List.pairwise_cons.mp h
  unfold freeNode
  rw [List.filter_cons_of_neg (by simp), List.filter_eq_self]
  intro x hx
  exact decide_eq_true (Nat.ne_of_gt (hhead x hx))

omit [DecidableEq Tid] in
/-- The node that `delAppender` takes out. -/
theorem eraseNode_find {appender : AppenderId} {nodes : List (Nat × AppenderId)} (h : Ordered nodes)
    {it : Nat × AppenderId} (hfind : nodes.find? (fun it => it.2 = appender) = some it) :
    eraseNode appender nodes = freeNode it.1 nodes := by
  induction nodes with
  | nil => cases hfind
  | cons x rest ih =>
      obtain ⟨hhead, hrest⟩ := List.pairwise_cons.mp h
      show (if x.2 = appender then rest else x :: eraseNode appender rest) = freeNode it.1 (x :: rest)
      by_cases hx : x.2 = appender
      · rw [if_pos hx]
        obtain rfl : x = it := Option.some.inj
          ((List.find?_cons_of_pos (p := fun it => decide (it.2 = appender))
            (decide_eq_true hx)).symm.trans hfind)
        exact (freeNode_head h).symm
      · rw [if_neg hx]
        rw [List.find?_cons_of_neg (by simpa using hx)] at hfind
        have hne : x.1 ≠ it.1 := Nat.ne_of_lt (hhead it (List.mem_of_find?_eq_some hfind))
        unfold freeNode at ih ⊢
        rw [ih hrest hfind, List.filter_cons_of_pos (by simpa using hne)]

omit [DecidableEq Tid] in
/-- A `delAppender` that finds nothing. -/
theorem eraseNode_find_none {appender : AppenderId} {nodes : List (Nat × AppenderId)}
    (hfind : nodes.find? (fun it => it.2 = appender) = none) : eraseNode appender nodes = nodes := by
  induction nodes with
  | nil => rfl
  | cons x rest ih =>
      obtain ⟨hx, hrest⟩ := List.forall_mem_cons.mp (List.find?_eq_none.mp hfind)
      show (if x.2 = appender then rest else x :: eraseNode appender rest) = x :: rest
      rw [if_neg (fun heq => hx (decide_eq_true heq)), ih (List.find?_eq_none.mpr hrest)]

/-! ## §5. What runs alone is what `Logger` does. -/

/-- The logger without its nodes. -/
def toLogger (s : SharedLogger Tid AppenderId) : Logger AppenderId where
  m_level := s.m_level
  m_appenders := s.m_appenders.map Prod.snd

omit [DecidableEq Tid] in
theorem eraseNode_map (appender : AppenderId) (nodes : List (Nat × AppenderId)) :
    (eraseNode appender nodes).map Prod.snd = Logger.delLoop appender (nodes.map Prod.snd) := by
  induction nodes with
  | nil => rfl
  | cons it rest ih =>
      show (if it.2 = appender then rest else it :: eraseNode appender rest).map Prod.snd
        = if it.2 = appender then rest.map Prod.snd else it.2 :: Logger.delLoop appender _
      by_cases h : it.2 = appender
      · rw [if_pos h, if_pos h]
      · rw [if_neg h, if_neg h, List.map_cons, ih]

/-- A change of the sequential logger. -/
def onLogger (op : Edit AppenderId) (logger : Logger AppenderId) :
    Logger AppenderId :=
  match op with
  | .addAppender appender => logger.addAppender appender
  | .delAppender appender => logger.delAppender appender
  | .clearAppender => logger.clearAppender

omit [DecidableEq AppenderId] in
/-- The node an iterator stands on is found. -/
theorem find_mem {nodes : List (Nat × AppenderId)} (h : Ordered nodes) {it : Nat × AppenderId}
    (hit : it ∈ nodes) :
    nodes.find? (fun x : Nat × AppenderId => x.1 = it.1) = some it := by
  obtain ⟨x, hx, hnumber, hfind⟩ | ⟨hnone, -⟩ := find_node nodes it.1
  · rw [hfind, h.eq_of_number hx hit hnumber]
  · exact absurd rfl (hnone it hit)

theorem step_deliver (h : Ordered s.nodes) {t : Tid} {event : LogEvent} {it : Nat × AppenderId}
    (hpc : s.pc t = .deliver event it.1) (hit : it ∈ s.nodes) :
    step s (.run t) = some ((s.goto t (.next event it.1)).deliver t (s.visited t ++ [it])) := by
  show s.runThread t = _
  unfold runThread
  simp only [hpc, find_mem h hit]

theorem step_next (h : Ordered s.nodes) {t : Tid} {event : LogEvent} {it : Nat × AppenderId}
    (hpc : s.pc t = .next event it.1) (hit : it ∈ s.nodes) :
    step s (.run t) = some (s.goto t (iterate event (after it.1 s.m_appenders).head?)) := by
  show s.runThread t = _
  unfold runThread
  simp only [hpc, find_mem h hit]

/-- The two steps of one round of the loop. -/
theorem solo_round {t : Tid} {event : LogEvent} {it : Nat × AppenderId}
    {before rest : List (Nat × AppenderId)} (hwhole : s.nodes = s.m_appenders)
    (hnodes : s.m_appenders = before ++ it :: rest) (h : Ordered s.m_appenders) (hpc : s.pc t = .deliver event it.1)
    (hrest : Solo step (.run t)
      ((s.goto t (iterate event rest.head?)).deliver t (s.visited t ++ [it])) s') :
    Solo step (.run t) s s' := by
  have hit : it ∈ s.nodes := by
    rw [hwhole, hnodes]
    exact List.mem_append_right _ List.mem_cons_self
  have hordered : Ordered s.nodes := hwhole ▸ h
  refine Solo.move step (step_deliver hordered hpc hit) ?_
  refine Solo.move step (step_next (s := (s.goto t (.next event it.1)).deliver t _) hordered
    (Function.update_self ..) hit) ?_
  have hafter : after it.1 s.m_appenders = rest := by
    rw [hnodes] at h ⊢
    exact after_append h
  show Solo step (.run t) (SharedLogger.goto _ t (iterate event (after it.1 s.m_appenders).head?)) s'
  rw [hafter]
  unfold goto deliver at hrest ⊢
  simp only [Function.update_idem]
  exact hrest

/-- The loop of `log`, from any node on. -/
theorem solo_walk (t : Tid) (event : LogEvent) (rest : List (Nat × AppenderId)) :
    ∀ (s : SharedLogger Tid AppenderId) (before : List (Nat × AppenderId)) (it : Nat × AppenderId),
      s.nodes = s.m_appenders → s.m_appenders = before ++ it :: rest → Ordered s.m_appenders →
      s.pc t = .deliver event it.1 →
      Solo step (.run t) s ((s.goto t .idle).deliver t (s.visited t ++ it :: rest)) := by
  induction rest with
  | nil =>
      intro s before it hwhole hnodes h hpc
      exact solo_round hwhole hnodes h hpc (Solo.refl step _ _)
  | cons next rest ih =>
      intro s before it hwhole hnodes h hpc
      refine solo_round hwhole hnodes h hpc ?_
      have hsplit : s.m_appenders = (before ++ [it]) ++ next :: rest := by
        rw [hnodes, List.append_assoc]
        rfl
      have hwalk := ih ((s.goto t (.deliver event next.1)).deliver t (s.visited t ++ [it]))
        (before ++ [it]) next hwhole hsplit h (Function.update_self ..)
      unfold goto deliver at hwalk ⊢
      simp only [Function.update_idem, Function.update_self, List.append_assoc,
        List.singleton_append] at hwalk
      exact hwalk

/-- From the level test on. -/
theorem solo_test (h : Ordered s.m_appenders) (hwhole : s.nodes = s.m_appenders) {t : Tid} {event : LogEvent}
    (hpc : s.pc t = .test event) (hvisited : s.visited t = []) :
    ∃ s', Solo step (.run t) s s' ∧ s'.pc t = .idle ∧
      s'.visited t = if event.getLevel ≤ s.m_level then s.m_appenders else [] := by
  have hstep : step s (.run t)
      = if event.getLevel ≤ s.m_level then some (s.goto t (.first event))
        else some (s.goto t .idle) := by
    show s.runThread t = _
    unfold runThread
    simp only [hpc]
  by_cases hlevel : event.getLevel ≤ s.m_level
  · rw [if_pos hlevel] at hstep ⊢
    have hfirst : step (s.goto t (.first event)) (.run t)
        = some ((s.goto t (.first event)).goto t (iterate event s.m_appenders.head?)) := by
      show SharedLogger.runThread _ t = _
      unfold runThread
      rw [show (s.goto t (.first event)).pc t = .first event from Function.update_self ..]
      rfl
    cases hnodes : s.m_appenders with
    | nil =>
        rw [hnodes] at hfirst
        exact ⟨_, Solo.move step hstep (Solo.move step hfirst (Solo.refl step _ _)),
          Function.update_self .., hvisited⟩
    | cons it rest =>
        rw [hnodes] at hfirst
        have hwalk := solo_walk t event rest
          ((s.goto t (.first event)).goto t (.deliver event it.1)) [] it hwhole hnodes h
          (Function.update_self ..)
        refine ⟨_, Solo.move step hstep (Solo.move step hfirst hwalk), Function.update_self .., ?_⟩
        show Function.update s.visited t (s.visited t ++ it :: rest) t = _
        rw [Function.update_self, hvisited]
        rfl
  · rw [if_neg hlevel] at hstep ⊢
    exact ⟨_, Solo.move step hstep (Solo.refl step _ _), Function.update_self .., hvisited⟩

/-- **A `log` that runs alone**, with no change under way, delivers what the sequential
`Logger::log` does. -/
theorem solo_log [DecidableEq Sink] (lib : Libc) (appenders : AppenderId → LogAppender Sink)
    (sinks : Sink → Str) (h : Ordered s.m_appenders) (hwhole : s.nodes = s.m_appenders) {t : Tid} (hpc : s.pc t = .idle)
    (event : LogEvent) :
    ∃ n s', exec step s (.log t event :: List.replicate n (.run t)) = some s' ∧ s'.pc t = .idle ∧
      (s'.visited t).foldl (fun sinks it => (appenders it.2).log lib event sinks) sinks
        = s.toLogger.log lib appenders event sinks := by
  have hlog : step s (.log t event) = some ((s.goto t (.test event)).deliver t []) := by
    simp only [step, hpc]
  obtain ⟨s', ⟨n, hn⟩, hidle, hvisited⟩ := solo_test
    (s := (s.goto t (.test event)).deliver t []) h hwhole (Function.update_self ..)
    (Function.update_self ..)
  refine ⟨n, s', (exec_cons_eq_some step).mpr ⟨_, hlog, hn⟩, hidle, ?_⟩
  rw [hvisited]
  show _ = if event.getLevel ≤ s.m_level then
    (s.m_appenders.map Prod.snd).foldl (fun sinks i => (appenders i).log lib event sinks) sinks
    else sinks
  by_cases hlevel : event.getLevel ≤ s.m_level
  · rw [if_pos hlevel, List.foldl_map]
    exact congrArg (List.foldl _ sinks) (if_pos hlevel)
  · rw [if_neg hlevel]
    exact congrArg (List.foldl _ sinks) (if_neg hlevel)

/-- What a change has done when it is over. -/
structure Changed (s s' : SharedLogger Tid AppenderId) (t : Tid) (chain : List (Nat × AppenderId)) :
    Prop where
  idle : s'.pc t = .idle
  released : s'.m_mutex = none
  linked : s'.m_appenders = chain
  whole : s'.nodes = chain
  level : s'.m_level = s.m_level

/-- The end of the scope. -/
theorem solo_unlock {t : Tid} (hpc : s.pc t = .unlock) (hwhole : s.nodes = s.m_appenders) :
    ∃ s', Solo step (.run t) s s' ∧ Changed s s' t s.m_appenders := by
  have hstep : step s (.run t) = some { s.goto t .idle with m_mutex := none } := by
    show s.runThread t = _
    unfold runThread
    simp only [hpc]
  exact ⟨_, Solo.move step hstep (Solo.refl step _ _), Function.update_self .., rfl, rfl, hwhole, rfl⟩

/-- The first step of a change, and the steps behind it. -/
theorem solo_move {t : Tid} {u : SharedLogger Tid AppenderId} {chain : List (Nat × AppenderId)}
    (hstep : s.runThread t = some u) (hlevel : u.m_level = s.m_level)
    (hrest : ∃ s', Solo step (.run t) u s' ∧ Changed u s' t chain) :
    ∃ s', Solo step (.run t) s s' ∧ Changed s s' t chain := by
  obtain ⟨s', hsolo, hchanged⟩ := hrest
  exact ⟨s', Solo.move step hstep hsolo, { hchanged with level := hchanged.level.trans hlevel }⟩

/-- `clear` frees what is left and resets the header. -/
theorem solo_clear (t : Tid) (cur : List (Nat × AppenderId)) :
    ∀ s : SharedLogger Tid AppenderId, s.pc t = .clear cur → s.nodes = cur → Ordered cur →
      ∃ s', Solo step (.run t) s s' ∧ Changed s s' t [] := by
  induction cur with
  | nil =>
      intro s hpc hnodes _
      refine solo_move (u := { s.goto t .unlock with m_appenders := [] }) ?_ rfl
        (solo_unlock (Function.update_self ..) hnodes)
      unfold runThread
      simp only [hpc]
  | cons it rest ih =>
      intro s hpc hnodes hordered
      refine solo_move (runThread_free (congrArg frees hpc)) rfl ?_
      refine ih _ (Function.update_self ..) ?_ (List.pairwise_cons.mp hordered).2
      show freeNode it.1 s.nodes = rest
      rw [hnodes, freeNode_head hordered]

/-- `delAppender`, from its search on. -/
theorem solo_erase (h : Ordered s.m_appenders) (hwhole : s.nodes = s.m_appenders) {t : Tid}
    {appender : AppenderId} (hpc : s.pc t = .edit (.delAppender appender)) :
    ∃ s', Solo step (.run t) s s' ∧ Changed s s' t (eraseNode appender s.m_appenders) := by
  have hstep := runThread_edit hpc
  cases hfind : s.m_appenders.find? (fun it => it.2 = appender) with
  | some it =>
      simp only [change, hfind] at hstep
      have hunhooked : (s.unhook t appender it.1).pc t = .free it.1 := Function.update_self ..
      have hfree := congrArg frees hunhooked
      refine solo_move hstep rfl (solo_move (runThread_free hfree) rfl ?_)
      refine solo_unlock (Function.update_self ..) ?_
      show freeNode it.1 s.nodes = eraseNode appender s.m_appenders
      rw [hwhole, eraseNode_find h hfind]
  | none =>
      simp only [change, hfind] at hstep
      rw [eraseNode_find_none hfind]
      exact solo_move hstep rfl (solo_unlock (Function.update_self ..) hwhole)

/-- A change, from its first step on. -/
theorem solo_change (h : Ordered s.m_appenders) (hwhole : s.nodes = s.m_appenders) {t : Tid}
    (op : Edit AppenderId) (hpc : s.pc t = .edit op) :
    ∃ chain s', Solo step (.run t) s s' ∧ Changed s s' t chain ∧
      chain.map Prod.snd = (onLogger op s.toLogger).m_appenders := by
  have hstep := runThread_edit hpc
  cases op with
  | addAppender appender =>
      obtain ⟨s', hsolo, hchanged⟩ := solo_move hstep rfl
        (solo_unlock (Function.update_self ..) (congrArg (· ++ [(s.allocated, appender)]) hwhole))
      exact ⟨_, s', hsolo, hchanged, List.map_append⟩
  | delAppender appender =>
      obtain ⟨s', hsolo, hchanged⟩ := solo_erase h hwhole hpc
      exact ⟨_, s', hsolo, hchanged, eraseNode_map appender s.m_appenders⟩
  | clearAppender =>
      obtain ⟨s', hsolo, hchanged⟩ := solo_move hstep rfl
        (solo_clear t s.m_appenders _ (Function.update_self ..) hwhole h)
      exact ⟨[], s', hsolo, hchanged, rfl⟩

/-- **A change that runs alone** leaves the list that the sequential member leaves, and
frees what it takes out. -/
theorem solo_edit (h : Ordered s.m_appenders) (hwhole : s.nodes = s.m_appenders) {t : Tid}
    (hpc : s.pc t = .idle) (hfree : s.m_mutex = none) (op : Edit AppenderId) :
    ∃ n s', exec step s (.edit t op :: List.replicate n (.run t)) = some s' ∧ s'.pc t = .idle ∧
      s'.m_mutex = none ∧ s'.nodes = s'.m_appenders ∧ s'.toLogger = onLogger op s.toLogger := by
  have hcall : step s (.edit t op) = some (s.goto t (.lock op)) := by
    simp only [step, hpc]
  have hlock : step (s.goto t (.lock op)) (.run t)
      = some { (s.goto t (.lock op)).goto t (.edit op) with m_mutex := some t } := by
    show SharedLogger.runThread _ t = _
    unfold runThread
    rw [show (s.goto t (.lock op)).pc t = .lock op from Function.update_self ..]
    exact if_pos (Option.isNone_iff_eq_none.mpr hfree)
  obtain ⟨chain, s', hsolo, hchanged, hchain⟩ := solo_change
    (s := { (s.goto t (.lock op)).goto t (.edit op) with m_mutex := some t }) h hwhole op
    (Function.update_self ..)
  obtain ⟨n, hn⟩ := Solo.move step hlock hsolo
  refine ⟨n, s', (exec_cons_eq_some step).mpr ⟨_, hcall, hn⟩, hchanged.idle, hchanged.released,
    hchanged.whole.trans hchanged.linked.symm, ?_⟩
  show Logger.mk s'.m_level (s'.m_appenders.map Prod.snd) = _
  rw [hchanged.level, hchanged.linked, hchain]
  cases op <;> rfl

end SharedLogger

end SylarCot.Log
