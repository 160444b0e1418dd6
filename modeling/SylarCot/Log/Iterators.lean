/-
  SylarCot.Log.Iterators
  ──────────────────────
  **A `log` AMONG CHANGES OF THE APPENDER LIST.**

  `log` holds no mutex, so nodes may be appended, taken out and freed while it walks
  along them.

    • `iterators_valid_iff` — no iterator is used whose node is freed, now or in a next
      step, exactly in the runs in which no `delAppender` or `clearAppender` frees a
      node that some `log` stands on, and no `log` begins at a node that a `clear` has
      freed without having reset the header yet;
    • `weakly_consistent` — in such runs every `log` delivers at most once to each node,
      in list order and to nodes that are not freed, and by the time it ends it has
      delivered to every node of the chain.
-/
import SylarCot.Log.SharedLogger

namespace SylarCot.Log

open Library

variable {Tid AppenderId : Type*}

namespace SharedLogger

/-! ## §1. The condition. -/

/-- The node an iterator of the thread stands on. -/
def stands : LogPc AppenderId → Option Nat
  | .deliver _ node => some node
  | .next _ node => some node
  | _ => none

/-- The node is one of these. -/
def Attached (nodes : List (Nat × AppenderId)) (node : Nat) : Prop := ∃ it ∈ nodes, it.1 = node

instance (nodes : List (Nat × AppenderId)) (node : Nat) : Decidable (Attached nodes node) :=
  inferInstanceAs (Decidable (∃ it ∈ nodes, it.1 = node))

/-- Where `begin()` of a `log` leads to. -/
def begins (s : SharedLogger Tid AppenderId) : LogPc AppenderId → Option (Nat × AppenderId)
  | .first _ => s.m_appenders.head?
  | _ => none

/-- The step puts no iterator on a node that is freed, and frees none that an iterator
stands on. -/
def Spares (s : SharedLogger Tid AppenderId) : LogLabel Tid AppenderId → Prop
  | .run t => (∀ it ∈ begins s (s.pc t), Attached s.nodes it.1) ∧
      ∀ node ∈ frees (s.pc t), ∀ u, node.1 ∉ stands (s.pc u)
  | _ => True

instance [Fintype Tid] (s : SharedLogger Tid AppenderId) : ∀ a, Decidable (Spares s a)
  | .run t => inferInstanceAs (Decidable ((∀ it ∈ begins s (s.pc t), Attached s.nodes it.1) ∧
      ∀ node ∈ frees (s.pc t), ∀ u, node.1 ∉ stands (s.pc u)))
  | .log _ _ => .isTrue trivial
  | .edit _ _ => .isTrue trivial
  | .setLevel _ => .isTrue trivial

/-! ## §2. What the mutex protects. -/

/-- The places of a thread that owns the mutex. -/
def InSection : LogPc AppenderId → Prop
  | .edit _ => True
  | .free _ => True
  | .clear _ => True
  | .unlock => True
  | _ => False

/-- How far a change has come at a place of its thread. -/
def Held (chain nodes : List (Nat × AppenderId)) : LogPc AppenderId → Prop
  | .edit _ => nodes = chain
  | .free node => freeNode node nodes = chain
  | .clear cur => nodes = cur ∧ cur <:+ chain
  | .unlock => nodes = chain
  | _ => False

/-- The nodes are in order, and their numbers have been given. -/
structure Numbered (n : Nat) (nodes : List (Nat × AppenderId)) : Prop where
  ordered : Ordered nodes
  below : ∀ it ∈ nodes, it.1 < n

/-- What holds in every run: the nodes have their numbers, and so do those of all
iterators; changes exclude each other, and with none under way the nodes in memory are
those of the chain. -/
structure Sound (s : SharedLogger Tid AppenderId) : Prop where
  linked : Numbered s.allocated s.m_appenders
  living : Numbered s.allocated s.nodes
  standing : ∀ t, ∀ node ∈ stands (s.pc t), node < s.allocated
  exclusive : Exclusive InSection s.pc s.m_mutex
  whole : Lends (s.nodes = s.m_appenders) (Held s.m_appenders s.nodes) s.pc s.m_mutex

theorem Numbered.append {n : Nat} {nodes : List (Nat × AppenderId)} (h : Numbered n nodes)
    (appender : AppenderId) : Numbered (n + 1) (nodes ++ [(n, appender)]) where
  ordered := h.ordered.append h.below appender
  below it hit := by
    rcases List.mem_append.mp hit with hit | hit
    · exact Nat.lt_succ_of_lt (h.below it hit)
    · rw [List.mem_singleton.mp hit]
      exact Nat.lt_succ_self _

theorem Numbered.sublist {n : Nat} {nodes rest : List (Nat × AppenderId)} (h : Numbered n nodes)
    (hsub : rest.Sublist nodes) : Numbered n rest where
  ordered := h.ordered.sublist hsub
  below it hit := h.below it (hsub.subset hit)

theorem sound_new : Sound ({} : SharedLogger Tid AppenderId) where
  linked := ⟨List.Pairwise.nil, fun _ hit => (List.not_mem_nil hit).elim⟩
  living := ⟨List.Pairwise.nil, fun _ hit => (List.not_mem_nil hit).elim⟩
  standing t node hnode := by cases hnode
  exclusive t h := by cases h
  whole := rfl

theorem freeNode_self (node : Nat) (nodes : List (Nat × AppenderId)) :
    ¬ Attached (freeNode node nodes) node := by
  rintro ⟨it, hit, hnumber⟩
  exact of_decide_eq_true (List.mem_filter.mp hit).2 hnumber

theorem freeNode_sublist (node : Nat) (nodes : List (Nat × AppenderId)) :
    (freeNode node nodes).Sublist nodes := List.filter_sublist

/-- **The chain and the memory**: the nodes of the chain are in memory, or a `clear` has
freed some of them, from the front. -/
theorem Sound.related {s : SharedLogger Tid AppenderId} (h : Sound s) :
    s.m_appenders.Sublist s.nodes ∨ s.nodes <:+ s.m_appenders := by
  have hwhole := h.whole
  cases howner : s.m_mutex with
  | none =>
      rw [howner] at hwhole
      exact .inr (hwhole ▸ List.suffix_refl _)
  | some t =>
      rw [howner] at hwhole
      change Held s.m_appenders s.nodes (s.pc t) at hwhole
      cases hpc : s.pc t with
      | edit op =>
          rw [hpc] at hwhole
          exact .inr (hwhole ▸ List.suffix_refl _)
      | free node =>
          rw [hpc] at hwhole
          exact .inl (hwhole ▸ freeNode_sublist node s.nodes)
      | clear cur =>
          rw [hpc] at hwhole
          exact .inr (hwhole.1 ▸ hwhole.2)
      | unlock =>
          rw [hpc] at hwhole
          exact .inr (hwhole ▸ List.suffix_refl _)
      | _ =>
          rw [hpc] at hwhole
          exact hwhole.elim

/-- A number is the same node in the chain and in memory. -/
theorem Sound.same {s : SharedLogger Tid AppenderId} (h : Sound s) {x it : Nat × AppenderId}
    (hx : x ∈ s.m_appenders) (hit : it ∈ s.nodes) (hnumber : x.1 = it.1) : x = it := by
  rcases h.related with hsub | hsuffix
  · exact h.living.ordered.eq_of_number (hsub.subset hx) hit hnumber
  · exact h.linked.ordered.eq_of_number hx (hsuffix.subset hit) hnumber

/-- **What is in front of a node in memory** is in memory. -/
theorem Sound.ahead {s : SharedLogger Tid AppenderId} (h : Sound s) {x it : Nat × AppenderId}
    (hit : it ∈ s.nodes) (hx : x ∈ after it.1 s.m_appenders) : x ∈ s.nodes := by
  obtain ⟨hx, hlt⟩ := (mem_after h.linked.ordered).mp hx
  rcases h.related with hsub | ⟨freed, hchain⟩
  · exact hsub.subset hx
  · -- what has been freed is behind
    rw [← hchain] at hx
    refine (List.mem_append.mp hx).resolve_left fun hfreed => ?_
    have hordered := h.linked.ordered
    rw [← hchain] at hordered
    exact Nat.lt_asymm hlt ((List.pairwise_append.mp hordered).2.2 x hfreed it hit)

/-- A node that is freed stays so: its number is not given again. -/
theorem append_gone {nodes : List (Nat × AppenderId)} {node n : Nat} (hnode : node < n)
    (hgone : ¬ Attached nodes node) (appender : AppenderId) :
    ¬ Attached (nodes ++ [(n, appender)]) node := by
  rintro ⟨it, hit, rfl⟩
  rcases List.mem_append.mp hit with hit | hit
  · exact hgone ⟨it, hit, rfl⟩
  · rw [List.mem_singleton.mp hit] at hnode
    exact absurd hnode (Nat.lt_irrefl _)

theorem freeNode_gone {nodes : List (Nat × AppenderId)} {node : Nat}
    (hgone : ¬ Attached nodes node) (freed : Nat) : ¬ Attached (freeNode freed nodes) node := by
  rintro ⟨it, hit, rfl⟩
  exact hgone ⟨it, (freeNode_sublist freed nodes).subset hit, rfl⟩

/-- A node other than the one that is freed stays. -/
theorem freeNode_stays {nodes : List (Nat × AppenderId)} {node freed : Nat}
    (hnode : Attached nodes node) (hne : freed ≠ node) : Attached (freeNode freed nodes) node := by
  obtain ⟨it, hit, rfl⟩ := hnode
  exact ⟨it, List.mem_filter.mpr ⟨hit, decide_eq_true (Ne.symm hne)⟩, rfl⟩

variable [DecidableEq Tid] {s s' : SharedLogger Tid AppenderId}

/-- One thread moves. -/
theorem standing_update {pc : Tid → LogPc AppenderId} {t : Tid} {p : LogPc AppenderId}
    {P : Nat → Prop} (h : ∀ u, ∀ node ∈ stands (pc u), P node) (hp : ∀ node ∈ stands p, P node) :
    ∀ u, ∀ node ∈ stands (Function.update pc t p u), P node := by
  intro u
  by_cases hut : u = t
  · rw [hut, Function.update_self]
    exact hp
  · rw [Function.update_of_ne hut]
    exact h u

omit [DecidableEq Tid] in
theorem stands_iterate {event : LogEvent} {nodes : List (Nat × AppenderId)} {P : Nat → Prop}
    (h : ∀ it ∈ nodes, P it.1) : ∀ node ∈ stands (iterate event nodes.head?), P node := by
  intro node hnode
  cases nodes with
  | nil => cases hnode
  | cons it rest =>
      obtain rfl : it.1 = node := Option.some.inj hnode
      exact h it List.mem_cons_self

omit [DecidableEq Tid] in
theorem not_inSection_iterate (event : LogEvent) (node : Option (Nat × AppenderId)) :
    ¬ InSection (iterate event node) := by
  cases node with
  | none => exact id
  | some it => exact id

omit [DecidableEq Tid] in
/-- Who is at a place of a change owns the mutex. -/
theorem inSection_of_held {chain nodes : List (Nat × AppenderId)} {p : LogPc AppenderId}
    (h : Held chain nodes p) : InSection p := by
  cases p with
  | edit op => trivial
  | free node => trivial
  | clear cur => trivial
  | unlock => trivial
  | _ => exact h.elim

/-- A thread outside of the changes moves. -/
theorem sound_move (h : Sound s) {t : Tid} {q p : LogPc AppenderId} (hat : s.pc t = q)
    (hpc : s'.pc = Function.update s.pc t p) (hchain : s'.m_appenders = s.m_appenders)
    (hnodes : s'.nodes = s.nodes) (hallocated : s'.allocated = s.allocated)
    (hmutex : s'.m_mutex = s.m_mutex) (hp : ∀ node ∈ stands p, node < s.allocated)
    (hout : ¬ InSection q) (hin : ¬ InSection p) : Sound s' where
  linked := by
    rw [hallocated, hchain]
    exact h.linked
  living := by
    rw [hallocated, hnodes]
    exact h.living
  standing := by
    rw [hpc, hallocated]
    exact standing_update h.standing hp
  exclusive := by
    rw [hpc, hmutex]
    exact h.exclusive.move (fun hp => (hin hp).elim)
  whole := by
    rw [hpc, hchain, hnodes, hmutex]
    refine h.whole.move (fun hheld => hout ?_)
    rw [← hat]
    exact inSection_of_held hheld

/-- The thread that owns the mutex goes on with its change. -/
theorem sound_change (h : Sound s) {t : Tid} {q p : LogPc AppenderId} (hat : s.pc t = q)
    (hin : InSection q) (hpc : s'.pc = Function.update s.pc t p) (hmutex : s'.m_mutex = s.m_mutex)
    (hlinked : Numbered s'.allocated s'.m_appenders) (hliving : Numbered s'.allocated s'.nodes)
    (hallocated : s.allocated ≤ s'.allocated) (hp : Held s'.m_appenders s'.nodes p) : Sound s' where
  linked := hlinked
  living := hliving
  standing := by
    rw [hpc]
    refine standing_update (fun u node hnode => ?_) (fun node hnode => ?_)
    · exact Nat.lt_of_lt_of_le (h.standing u node hnode) hallocated
    · cases p with
      | deliver event node => exact hp.elim
      | next event node => exact hp.elim
      | _ => cases hnode
  exclusive := by
    rw [hpc, hmutex]
    exact h.exclusive.move (fun _ => hat ▸ hin)
  whole := by
    rw [hpc, hmutex, h.exclusive t (hat ▸ hin)]
    exact Lends.keep hp

omit [DecidableEq Tid] in
/-- How far the change of a thread has come. -/
theorem Sound.held (h : Sound s) {t : Tid} {p : LogPc AppenderId} (hat : s.pc t = p)
    (hin : InSection p) : Held s.m_appenders s.nodes p := by
  subst hat
  have hwhole := h.whole
  rw [h.exclusive t hin] at hwhole
  exact hwhole

/-- **A node is freed**: the change has come one step further. -/
theorem held_free {chain nodes : List (Nat × AppenderId)} (h : Ordered nodes)
    {p q : LogPc AppenderId} {node : Nat} (hp : frees p = some (node, q))
    (hheld : Held chain nodes p) : Held chain (freeNode node nodes) q := by
  cases p with
  | free m =>
      cases hp
      exact hheld
  | clear cur =>
      cases cur with
      | nil => cases hp
      | cons it rest =>
          cases hp
          obtain ⟨rfl, hsuffix⟩ := hheld
          exact ⟨freeNode_head h, (List.suffix_cons it rest).trans hsuffix⟩
  | _ => cases hp

omit [DecidableEq Tid] in
theorem stands_of_inSection {p : LogPc AppenderId} (h : InSection p) : stands p = none := by
  cases p <;> first | rfl | exact h.elim

omit [DecidableEq Tid] in
/-- Only a change frees nodes. -/
theorem inSection_of_frees {p q : LogPc AppenderId} {node : Nat} (h : frees p = some (node, q)) :
    InSection p ∧ InSection q := by
  cases p with
  | free m =>
      cases h
      exact ⟨trivial, trivial⟩
  | clear cur =>
      cases cur with
      | nil => cases h
      | cons it rest =>
          cases h
          exact ⟨trivial, trivial⟩
  | _ => cases h

variable [DecidableEq AppenderId]

/-- **Every step keeps nodes and numbers sound.** -/
theorem sound_step {a : LogLabel Tid AppenderId} (h : Sound s) (hs : step s a = some s') :
    Sound s' := by
  have hnone : ∀ node ∈ (none : Option Nat), node < s.allocated := fun _ hnode => by cases hnode
  cases moves_of_step hs with
  | log t event hpc => exact sound_move h hpc rfl rfl rfl rfl rfl hnone id id
  | call t op hpc => exact sound_move h hpc rfl rfl rfl rfl rfl hnone id id
  | setLevel level => exact ⟨h.linked, h.living, h.standing, h.exclusive, h.whole⟩
  | pass t event hpc hlevel => exact sound_move h hpc rfl rfl rfl rfl rfl hnone id id
  | drop t event hpc hlevel => exact sound_move h hpc rfl rfl rfl rfl rfl hnone id id
  | first t event hpc =>
      exact sound_move h hpc rfl rfl rfl rfl rfl (stands_iterate h.linked.below) id
        (not_inSection_iterate event _)
  | deliver t event it hpc hit =>
      refine sound_move h hpc rfl rfl rfl rfl rfl ?_ id id
      intro node hnode
      obtain rfl : it.1 = node := Option.some.inj hnode
      exact h.living.below it hit
  -- the iterator keeps its number, whether or not the node is still there
  | deliverErased t event node hpc hgone =>
      refine sound_move h hpc rfl rfl rfl rfl rfl ?_ id id
      intro m hm
      exact h.standing t m (by rw [hpc]; exact hm)
  | next t event it hpc hit =>
      refine sound_move h hpc rfl rfl rfl rfl rfl (stands_iterate ?_) id
        (not_inSection_iterate event _)
      intro x hx
      exact h.linked.below x ((mem_after h.linked.ordered).mp hx).1
  | nextErased t event node hpc hgone => exact sound_move h hpc rfl rfl rfl rfl rfl hnone id id
  -- what the mutex lends is whole, and a change begins with it
  | lock t op hpc hfree =>
      have hexclusive := h.exclusive
      have hwhole := h.whole
      rw [hfree] at hexclusive hwhole
      exact ⟨h.linked, h.living, standing_update h.standing (fun _ hnode => by cases hnode),
        hexclusive.acquire, Lends.keep hwhole⟩
  | append t appender hpc =>
      refine sound_change h hpc trivial rfl rfl (h.linked.append appender) (h.living.append appender)
        (Nat.le_succ _) ?_
      exact congrArg (· ++ [(s.allocated, appender)]) (h.held hpc trivial)
  | unhook t appender it hpc hfind =>
      have hheld : s.nodes = s.m_appenders := h.held hpc trivial
      have herase := eraseNode_find h.linked.ordered hfind
      refine sound_change h hpc trivial rfl rfl ?_ h.living (Nat.le_refl _) ?_
      · show Numbered s.allocated (eraseNode appender s.m_appenders)
        rw [herase]
        exact h.linked.sublist (freeNode_sublist it.1 _)
      · show freeNode it.1 s.nodes = eraseNode appender s.m_appenders
        rw [herase, hheld]
  | notThere t appender hpc hfind =>
      have hheld : s.nodes = s.m_appenders := h.held hpc trivial
      exact sound_change h hpc trivial rfl rfl h.linked h.living (Nat.le_refl _) hheld
  | clear t hpc =>
      exact sound_change h hpc trivial rfl rfl h.linked h.living (Nat.le_refl _)
        ⟨h.held hpc trivial, List.suffix_refl _⟩
  | free t node p hpc =>
      obtain ⟨hin, -⟩ := inSection_of_frees hpc
      exact sound_change h rfl hin rfl rfl h.linked (h.living.sublist (freeNode_sublist node s.nodes))
        (Nat.le_refl _) (held_free h.living.ordered hpc (h.held rfl hin))
  -- by now all nodes have been freed
  | reset t hpc =>
      exact sound_change h hpc trivial rfl rfl (h.linked.sublist (List.nil_sublist _)) h.living
        (Nat.le_refl _) (h.held hpc trivial).1
  | unlock t hpc =>
      have hin : InSection (s.pc t) := by
        rw [hpc]
        trivial
      exact ⟨h.linked, h.living, standing_update h.standing (fun _ hnode => by cases hnode),
        h.exclusive.release hin id, h.held hpc trivial⟩

/-! ## §3. Walks along nodes that are spared. -/

/-- How far the `log` of a thread has come, on a node that is still in memory. -/
def Here (chain nodes visited : List (Nat × AppenderId)) : LogPc AppenderId → Prop
  | .test _ => visited = []
  | .first _ => visited = []
  | .deliver _ node => Attached nodes node ∧ Walk chain visited node
  | .next _ node => Attached nodes node ∧ Walk chain visited (node + 1)
  | _ => Ordered visited

/-- No iterator has lost its node, and every walk is where it should be. -/
structure Valid (s : SharedLogger Tid AppenderId) : Prop where
  sound : Sound s
  untouched : s.touchedErased = false
  here : ∀ t, Here s.m_appenders s.nodes (s.visited t) (s.pc t)

omit [DecidableEq AppenderId] [DecidableEq Tid] in
theorem valid_new : Valid ({} : SharedLogger Tid AppenderId) where
  sound := sound_new
  untouched := rfl
  here _ := List.Pairwise.nil

section Walks

omit [DecidableEq AppenderId] [DecidableEq Tid]

variable {chain nodes visited : List (Nat × AppenderId)}

theorem Here.once {p : LogPc AppenderId} (h : Here chain nodes visited p) : Ordered visited := by
  cases p with
  | test event =>
      obtain rfl : visited = [] := h
      exact List.Pairwise.nil
  | first event =>
      obtain rfl : visited = [] := h
      exact List.Pairwise.nil
  | deliver event node => exact h.2.once
  | next event node => exact h.2.once
  | _ => exact h

theorem Here.attached {p : LogPc AppenderId} (h : Here chain nodes visited p) :
    ∀ node ∈ stands p, Attached nodes node := by
  intro node hnode
  cases p with
  | deliver event m =>
      obtain rfl : m = node := Option.some.inj hnode
      exact h.1
  | next event m =>
      obtain rfl : m = node := Option.some.inj hnode
      exact h.1
  | _ => cases hnode

/-- The loop begins. -/
theorem here_first (hchain : Ordered chain) (event : LogEvent)
    (hbegin : ∀ it ∈ chain.head?, Attached nodes it.1) :
    Here chain nodes [] (iterate event chain.head?) := by
  cases hhead : chain.head? with
  | none => exact List.Pairwise.nil
  | some it => exact ⟨hbegin it hhead, Walk.start hchain hhead⟩

/-- The loop goes on, or ends. -/
theorem here_next (hchain : Ordered chain) (event : LogEvent) {node : Nat}
    (hahead : ∀ x ∈ after node chain, x ∈ nodes) (hwalk : Walk chain visited (node + 1)) :
    Here chain nodes visited (iterate event (after node chain).head?) := by
  cases hhead : (after node chain).head? with
  | none => exact hwalk.once
  | some m => exact ⟨⟨m, hahead m (List.mem_of_mem_head? hhead), rfl⟩, hwalk.advance hchain hhead⟩

end Walks

omit [DecidableEq Tid] [DecidableEq AppenderId] in
theorem Valid.hereAt (h : Valid s) {t : Tid} {p : LogPc AppenderId} (hpc : s.pc t = p) :
    Here s.m_appenders s.nodes (s.visited t) p := by
  rw [← hpc]
  exact h.here t

omit [DecidableEq Tid] [DecidableEq AppenderId] in
/-- No thread stands on a node that is freed. -/
theorem Valid.not_erased (h : Valid s) {t : Tid} {p : LogPc AppenderId} {node : Nat}
    (hpc : s.pc t = p) (hstands : node ∈ stands p) : ¬ ∀ it ∈ s.nodes, it.1 ≠ node := by
  intro hgone
  obtain ⟨it, hit, hnumber⟩ := (h.hereAt hpc).attached node hstands
  exact hgone it hit hnumber

omit [DecidableEq AppenderId] in
/-- One thread goes on, the list stays as it is. -/
theorem valid_move (h : Valid s) (hsound : Sound s') {t : Tid} {p : LogPc AppenderId}
    {visited : List (Nat × AppenderId)} (htouched : s'.touchedErased = false)
    (hchain : s'.m_appenders = s.m_appenders) (hnodes : s'.nodes = s.nodes)
    (hpc : s'.pc = Function.update s.pc t p) (hvisited : s'.visited = Function.update s.visited t visited)
    (hp : Here s.m_appenders s.nodes visited p) : Valid s' := by
  refine ⟨hsound, htouched, ?_⟩
  intro u
  rw [hchain, hnodes, hpc, hvisited]
  by_cases hut : u = t
  · rw [hut, Function.update_self, Function.update_self]
    exact hp
  · rw [Function.update_of_ne hut, Function.update_of_ne hut]
    exact h.here u

omit [DecidableEq AppenderId] in
/-- **The list changes** around every walk; who changes it is in no loop. -/
theorem valid_change (h : Valid s) (hsound : Sound s') {t : Tid} {p : LogPc AppenderId}
    (htouched : s'.touchedErased = false) (hpc : s'.pc = Function.update s.pc t p)
    (hvisited : s'.visited = s.visited) (hp : InSection p)
    (hstay : ∀ u, ∀ node ∈ stands (s.pc u), Attached s.nodes node → Attached s'.nodes node)
    (hwalk : ∀ {visited c}, c ≤ s.allocated → Walk s.m_appenders visited c →
      Walk s'.m_appenders visited c) : Valid s' := by
  refine ⟨hsound, htouched, ?_⟩
  intro u
  rw [hpc, hvisited]
  have hhere := h.here u
  by_cases hut : u = t
  · rw [hut, Function.update_self]
    rw [hut] at hhere
    cases p with
    | edit op => exact hhere.once
    | free node => exact hhere.once
    | clear cur => exact hhere.once
    | unlock => exact hhere.once
    | _ => exact hp.elim
  · rw [Function.update_of_ne hut]
    have hattached : ∀ node ∈ stands (s.pc u), Attached s'.nodes node :=
      fun node hnode => hstay u node hnode (hhere.attached node hnode)
    have hstanding := h.sound.standing u
    cases hp : s.pc u with
    | deliver event node =>
        rw [hp] at hhere hattached hstanding
        exact ⟨hattached node rfl, hwalk (Nat.le_of_lt (hstanding node rfl)) hhere.2⟩
    | next event node =>
        rw [hp] at hhere hattached hstanding
        exact ⟨hattached node rfl, hwalk (hstanding node rfl) hhere.2⟩
    | _ =>
        rw [hp] at hhere
        exact hhere

/-- **Every step that spares the iterators keeps them valid.** -/
theorem valid_step {a : LogLabel Tid AppenderId} (h : Valid s) (hspares : Spares s a)
    (hs : step s a = some s') : Valid s' := by
  have hsound := sound_step h.sound hs
  have hsame : ∀ t, s.visited = Function.update s.visited t (s.visited t) :=
    fun t => (Function.update_eq_self t s.visited).symm
  cases moves_of_step hs with
  | log t event hpc => exact valid_move h hsound h.untouched rfl rfl rfl rfl rfl
  | call t op hpc => exact valid_move h hsound h.untouched rfl rfl rfl (hsame t) (h.here t).once
  | setLevel level => exact ⟨hsound, h.untouched, h.here⟩
  | pass t event hpc hlevel =>
      have hhere := h.hereAt hpc
      exact valid_move h hsound h.untouched rfl rfl rfl (hsame t) hhere
  | drop t event hpc hlevel =>
      exact valid_move h hsound h.untouched rfl rfl rfl (hsame t) (h.here t).once
  | first t event hpc =>
      obtain ⟨hbegin, -⟩ := hspares
      rw [hpc] at hbegin
      refine valid_move h hsound h.untouched rfl rfl rfl (hsame t) ?_
      rw [show s.visited t = [] from h.hereAt hpc]
      exact here_first h.sound.linked.ordered event hbegin
  | deliver t event it hpc hit =>
      have hhere := h.hereAt hpc
      exact valid_move h hsound h.untouched rfl rfl rfl rfl
        ⟨hhere.1, hhere.2.visit fun x hx hnumber => h.sound.same hx hit hnumber⟩
  | deliverErased t event node hpc hgone => exact absurd hgone (h.not_erased hpc rfl)
  | next t event it hpc hit =>
      exact valid_move h hsound h.untouched rfl rfl rfl (hsame t)
        (here_next h.sound.linked.ordered event (fun x hx => h.sound.ahead hit hx) (h.hereAt hpc).2)
  | nextErased t event node hpc hgone => exact absurd hgone (h.not_erased hpc rfl)
  | lock t op hpc hfree =>
      exact valid_move h hsound h.untouched rfl rfl rfl (hsame t) (h.here t).once
  | append t appender hpc =>
      refine valid_change (t := t) h hsound h.untouched rfl rfl trivial ?_
        (fun hc hw => hw.append hc appender)
      rintro u node - ⟨it, hit, hnumber⟩
      exact ⟨it, List.mem_append_left _ hit, hnumber⟩
  -- an iterator may stand on the node that is taken out, as it is not freed yet
  | unhook t appender it hpc hfind =>
      refine valid_change (t := t) (p := .free it.1) h hsound h.untouched rfl rfl trivial
        (fun _ _ _ => id) (fun _ hw => ?_)
      rw [show (s.unhook t appender it.1).m_appenders = freeNode it.1 s.m_appenders from
        eraseNode_find h.sound.linked.ordered hfind]
      exact hw.erase (freeNode_sublist it.1 s.m_appenders).subset
  | notThere t appender hpc hfind =>
      exact valid_move h hsound h.untouched rfl rfl rfl (hsame t) (h.here t).once
  | clear t hpc =>
      exact valid_move h hsound h.untouched rfl rfl rfl (hsame t) (h.here t).once
  | free t node p hpc =>
      obtain ⟨-, hfrees⟩ := hspares
      -- every iterator stands on another node
      refine valid_change (t := t) h hsound h.untouched rfl rfl (inSection_of_frees hpc).2 ?_
        (fun _ => id)
      intro u m hm hattached
      refine freeNode_stays hattached ?_
      rintro rfl
      exact hfrees (node, p) hpc u hm
  | reset t hpc =>
      exact valid_change (t := t) h hsound h.untouched rfl rfl trivial (fun _ _ _ => id)
        (fun _ hw => hw.erase (List.nil_subset _))
  | unlock t hpc => exact valid_move h hsound h.untouched rfl rfl rfl (hsame t) (h.here t).once

/-! ## §4. Iterators without a node. -/

/-- An iterator has been used that had lost its node, or some thread holds one. -/
structure Doomed (s : SharedLogger Tid AppenderId) : Prop where
  sound : Sound s
  lost : ∃ t, s.touchedErased = true ∨ ∃ node ∈ stands (s.pc t), ¬ Attached s.nodes node

omit [DecidableEq Tid] [DecidableEq AppenderId] in
/-- What a step does that does not spare the iterators. -/
theorem unspared_cases {t : Tid} (h : ¬ Spares s (.run t)) :
    (∃ it ∈ begins s (s.pc t), ¬ Attached s.nodes it.1) ∨
      ∃ freed ∈ frees (s.pc t), ∃ u, freed.1 ∈ stands (s.pc u) := by
  by_contra hall
  rw [not_or] at hall
  refine h ⟨fun it hit => ?_, fun freed hfreed u hu => hall.2 ⟨freed, hfreed, u, hu⟩⟩
  by_contra hgone
  exact hall.1 ⟨it, hit, hgone⟩

omit [DecidableEq Tid] [DecidableEq AppenderId] in
theorem begins_of_inSection {p : LogPc AppenderId} (h : InSection p) : begins s p = none := by
  cases p <;> first | rfl | exact h.elim

/-- A step that does not spare the iterators. -/
theorem doomed_of_unspared {a : LogLabel Tid AppenderId} (h : Valid s) (hspares : ¬ Spares s a)
    (hs : step s a = some s') : Doomed s' := by
  refine ⟨sound_step h.sound hs, ?_⟩
  cases moves_of_step hs with
  | log t event hpc => exact absurd trivial hspares
  | call t op hpc => exact absurd trivial hspares
  | setLevel level => exact absurd trivial hspares
  | first t event hpc =>
      obtain ⟨it, hit, hgone⟩ | ⟨freed, hfreed, -⟩ := unspared_cases hspares
      · rw [hpc] at hit
        refine ⟨t, .inr ⟨it.1, ?_, hgone⟩⟩
        show it.1 ∈ stands (Function.update s.pc t (iterate event s.m_appenders.head?) t)
        rw [Function.update_self, show s.m_appenders.head? = some it from hit]
        rfl
      · rw [hpc] at hfreed
        cases hfreed
  | free t node p hpc =>
      obtain ⟨hin, -⟩ := inSection_of_frees hpc
      obtain ⟨it, hit, -⟩ | ⟨freed, hfreed, u, hu⟩ := unspared_cases hspares
      · rw [begins_of_inSection hin] at hit
        cases hit
      · -- some other thread stands on the node that is freed
        obtain rfl : (node, p) = freed := Option.some.inj (hpc.symm.trans hfreed)
        refine ⟨u, .inr ⟨node, ?_, freeNode_self node s.nodes⟩⟩
        show node ∈ stands (Function.update s.pc t p u)
        rw [Function.update_of_ne]
        · exact hu
        · rintro rfl
          rw [stands_of_inSection hin] at hu
          cases hu
  | _ =>
      obtain ⟨it, hit, -⟩ | ⟨freed, hfreed, -⟩ := unspared_cases hspares
      · simp [begins, *] at hit
      · simp [frees, *] at hfreed

/-- **A lost node is lost for good**, until the iterator is used. -/
theorem doomed_step {a : LogLabel Tid AppenderId} (h : Doomed s) (hs : step s a = some s') :
    Doomed s' := by
  refine ⟨sound_step h.sound hs, ?_⟩
  obtain ⟨u, htouched | ⟨node, hstands, hgone⟩⟩ := h.lost
  · refine ⟨u, .inl ?_⟩
    cases moves_of_step hs with
    | deliverErased t event node hpc hgone => rfl
    | nextErased t event node hpc hgone => rfl
    | _ => exact htouched
  refine ⟨u, ?_⟩
  -- the thread goes on only by using its iterator
  have hstay : ∀ {t q p}, s.pc t = q → stands q ≠ some node →
      node ∈ stands (Function.update s.pc t p u) := by
    intro t q p hpc hother
    rw [Function.update_of_ne]
    · exact hstands
    · rintro rfl
      rw [hpc] at hstands
      exact hother hstands
  have hnone : (none : Option Nat) ≠ some node := fun hnode => by cases hnode
  have hattached : ∀ it ∈ s.nodes, some it.1 ≠ some node :=
    fun it hit hnode => hgone ⟨it, hit, Option.some.inj hnode⟩
  cases moves_of_step hs with
  | log t event hpc => exact .inr ⟨node, hstay hpc hnone, hgone⟩
  | call t op hpc => exact .inr ⟨node, hstay hpc hnone, hgone⟩
  | setLevel level => exact .inr ⟨node, hstands, hgone⟩
  | pass t event hpc hlevel => exact .inr ⟨node, hstay hpc hnone, hgone⟩
  | drop t event hpc hlevel => exact .inr ⟨node, hstay hpc hnone, hgone⟩
  | first t event hpc => exact .inr ⟨node, hstay hpc hnone, hgone⟩
  | deliver t event it hpc hit =>
      exact .inr ⟨node, hstay hpc (hattached it hit), hgone⟩
  | deliverErased t event m hpc hm => exact .inl rfl
  | next t event it hpc hit =>
      exact .inr ⟨node, hstay hpc (hattached it hit), hgone⟩
  | nextErased t event m hpc hm => exact .inl rfl
  | lock t op hpc hfree => exact .inr ⟨node, hstay hpc hnone, hgone⟩
  -- a new node has a number of its own
  | append t appender hpc =>
      exact .inr ⟨node, hstay hpc hnone,
        append_gone (h.sound.standing u node hstands) hgone appender⟩
  | unhook t appender it hpc hfind => exact .inr ⟨node, hstay hpc hnone, hgone⟩
  | notThere t appender hpc hfind => exact .inr ⟨node, hstay hpc hnone, hgone⟩
  | clear t hpc => exact .inr ⟨node, hstay hpc hnone, hgone⟩
  | free t m p hpc =>
      have hquiet := stands_of_inSection (inSection_of_frees hpc).1
      exact .inr ⟨node, hstay rfl (by rw [hquiet]; exact hnone), freeNode_gone hgone m⟩
  | reset t hpc => exact .inr ⟨node, hstay hpc hnone, hgone⟩
  | unlock t hpc => exact .inr ⟨node, hstay hpc hnone, hgone⟩

/-- The next step of a thread whose iterator has lost its node. -/
theorem touches {t : Tid} {node : Nat} (hstands : node ∈ stands (s.pc t))
    (hgone : ¬ Attached s.nodes node) :
    ∃ s', step s (.run t) = some s' ∧ s'.touchedErased = true := by
  have hfind : s.nodes.find? (fun it : Nat × AppenderId => it.1 = node) = none := by
    refine List.find?_eq_none.mpr ?_
    intro it hit heq
    exact hgone ⟨it, hit, of_decide_eq_true heq⟩
  cases hpc : s.pc t with
  | deliver event m =>
      rw [hpc] at hstands
      obtain rfl : m = node := Option.some.inj hstands
      refine ⟨{ s.goto t (.next event m) with touchedErased := true }, ?_, rfl⟩
      show s.runThread t = _
      unfold runThread
      simp only [hpc, hfind]
  | next event m =>
      rw [hpc] at hstands
      obtain rfl : m = node := Option.some.inj hstands
      refine ⟨{ s.goto t .idle with touchedErased := true }, ?_, rfl⟩
      show s.runThread t = _
      unfold runThread
      simp only [hpc, hfind]
  | _ =>
      rw [hpc] at hstands
      cases hstands

/-- No iterator has been used whose node is gone. -/
def Untouched (s : SharedLogger Tid AppenderId) : Prop := s.touchedErased = false

theorem untouched_step (h : Valid s) {t : Tid} (hs : step s (.run t) = some s') :
    s'.Untouched := by
  cases moves_of_step hs with
  | deliverErased t event node hpc hgone => exact absurd hgone (h.not_erased hpc rfl)
  | nextErased t event node hpc hgone => exact absurd hgone (h.not_erased hpc rfl)
  | _ => exact h.untouched

theorem not_untouched_of_doomed (h : Doomed s) : ∃ t, ¬ Always step Untouched s [.run t] := by
  obtain ⟨t, htouched | ⟨node, hstands, hgone⟩⟩ := h.lost
  · refine ⟨t, fun halways => ?_⟩
    have hfalse : s.touchedErased = false := halways.1
    rw [htouched] at hfalse
    cases hfalse
  · obtain ⟨s', hs, htouched⟩ := touches hstands hgone
    refine ⟨t, fun halways => ?_⟩
    have hfalse : s'.touchedErased = false := halways.2 s' hs
    rw [htouched] at hfalse
    cases hfalse

/-- **WHEN ITERATORS STAY VALID.**  No iterator is used whose node is freed, neither in
the run nor in a next step of any thread, if and only if no change in the run frees a
node that an iterator stands on, and no `log` begins at a node that a `clear` under way
has freed. -/
theorem iterators_valid_iff (as : List (LogLabel Tid AppenderId)) (s : SharedLogger Tid AppenderId)
    (hrun : exec step {} as = some s) :
    Guarded step Spares {} as ↔ ∀ t, Always step Untouched {} (as ++ [.run t]) := by
  constructor
  · intro hspares t
    have halways := always_of_guarded step Valid (fun _ _ _ => valid_step) (fun _ => Valid.untouched)
      as _ valid_new hspares
    refine Always.append halways ?_
    intro u hu
    have hvalid := hspares.exec_invariant Valid (fun _ _ _ => valid_step) as _ u valid_new hu
    exact ⟨hvalid.untouched, fun s' hs => untouched_step hvalid hs⟩
  · intro halways
    by_contra hspares
    have hdoomed := marked_of_unguarded step Valid Doomed (fun _ _ _ => valid_step)
      (fun _ _ _ => doomed_of_unspared) (fun _ _ _ => doomed_step) as _ s valid_new hrun hspares
    obtain ⟨t, ht⟩ := not_untouched_of_doomed hdoomed
    exact ht (always_of_append step as _ s hrun (halways t))

/-! ## §5. What a `log` delivers. -/

/-- The thread is in the loop of `log`. -/
def inLoop : LogPc AppenderId → Bool
  | .first _ => true
  | .deliver _ _ => true
  | .next _ _ => true
  | _ => false

/-- What a step does to the `log` of a thread. -/
structure Delivers (s s' : SharedLogger Tid AppenderId) (t : Tid) : Prop where
  /-- To no node twice, and in list order. -/
  once : Ordered (s'.visited t)
  /-- To nodes in memory only. -/
  attached : s'.visited t = s.visited t ∨ s.pc t = .idle ∧ s'.visited t = [] ∨
    ∃ it ∈ s.nodes, s'.visited t = s.visited t ++ [it]
  /-- To every node of the chain, when the loop ends. -/
  complete : inLoop (s.pc t) = true → s'.pc t = .idle →
    ∀ it ∈ s'.m_appenders, it ∈ s'.visited t

/-- The step is weakly consistent, for every thread. -/
def Consistent (s : SharedLogger Tid AppenderId) (a : LogLabel Tid AppenderId) : Prop :=
  ∀ s', step s a = some s' → ∀ t, Delivers s s' t

/-- What has been delivered before stays delivered, and nodes in memory come to it. -/
theorem attached_of_moves {a : LogLabel Tid AppenderId} (h : Moves s a s') (t : Tid) :
    s'.visited t = s.visited t ∨ s.pc t = .idle ∧ s'.visited t = [] ∨
      ∃ it ∈ s.nodes, s'.visited t = s.visited t ++ [it] := by
  cases h with
  | log u event hpc =>
      by_cases htu : t = u
      · subst htu
        exact .inr (.inl ⟨hpc, Function.update_self ..⟩)
      · exact .inl (Function.update_of_ne htu ..)
  | deliver u event it hpc hit =>
      by_cases htu : t = u
      · subst htu
        exact .inr (.inr ⟨it, hit, Function.update_self ..⟩)
      · exact .inl (Function.update_of_ne htu ..)
  | _ => exact .inl rfl

omit [DecidableEq AppenderId] in
/-- Only the thread that moves can end its loop. -/
theorem pc_ne_idle {t u : Tid} {p : LogPc AppenderId} (hin : inLoop (s.pc t) = true)
    (hpc : s'.pc = Function.update s.pc u p) (hp : inLoop (s.pc u) = false ∨ p ≠ .idle) :
    s'.pc t ≠ .idle := by
  intro hidle
  rw [hpc] at hidle
  by_cases htu : t = u
  · rw [htu, Function.update_self] at hidle
    rw [htu] at hin
    rcases hp with hp | hp
    · rw [hp] at hin
      cases hin
    · exact hp hidle
  · rw [Function.update_of_ne htu] at hidle
    rw [hidle] at hin
    cases hin

/-- **When the loop ends**, it has been at every node of the chain. -/
theorem complete_of_moves {a : LogLabel Tid AppenderId} (h : Valid s) (hs : Moves s a s') {t : Tid}
    (hin : inLoop (s.pc t) = true) (hidle : s'.pc t = .idle) :
    ∀ it ∈ s'.m_appenders, it ∈ s'.visited t := by
  cases hs with
  | setLevel level =>
      rw [show s.pc t = .idle from hidle] at hin
      cases hin
  | first u event hpc =>
      intro it hit
      cases hhead : s.m_appenders.head? with
      | none =>
          change it ∈ s.m_appenders at hit
          rw [List.head?_eq_none_iff.mp hhead] at hit
          cases hit
      | some m =>
          rw [hhead] at hidle
          exact absurd hidle (pc_ne_idle hin rfl (.inr (by intro h; cases h)))
  | next u event it hpc hit =>
      intro x hx
      cases hhead : (after it.1 s.m_appenders).head? with
      | none =>
          have htu : t = u := by
            by_contra htu
            rw [show (s.goto u _).pc t = s.pc t from Function.update_of_ne htu ..] at hidle
            rw [hidle] at hin
            cases hin
          subst htu
          exact (h.hereAt hpc).2.finish h.sound.linked.ordered hhead hx
      | some m =>
          rw [hhead] at hidle
          exact absurd hidle (pc_ne_idle hin rfl (.inr (by intro h; cases h)))
  | nextErased u event node hpc hgone => exact absurd hgone (h.not_erased hpc rfl)
  -- the other steps leave no loop
  | drop u event hpc hlevel => exact absurd hidle (pc_ne_idle hin rfl (.inl (by rw [hpc]; rfl)))
  | unlock u hpc => exact absurd hidle (pc_ne_idle hin rfl (.inl (by rw [hpc]; rfl)))
  | free u node p hpc =>
      exact absurd hidle (pc_ne_idle hin rfl (.inr (by rintro rfl; exact (inSection_of_frees hpc).2)))
  | _ => exact absurd hidle (pc_ne_idle hin rfl (.inr (by intro h; cases h)))

/-- **`log` IS WEAKLY CONSISTENT** in every run whose changes spare the iterators:
whatever other threads append and erase meanwhile, it delivers to no node twice, in list
order, to nodes that are not freed, and behind its loop it has delivered to every node
of the chain. -/
theorem weakly_consistent (as : List (LogLabel Tid AppenderId))
    (hspares : Guarded step Spares ({} : SharedLogger Tid AppenderId) as) :
    Guarded step Consistent {} as := by
  refine hspares.imp Valid (fun _ _ _ => valid_step) ?_ as _ valid_new
  intro s a h hsp s' hs t
  have hmoves := moves_of_step hs
  exact ⟨((valid_step h hsp hs).here t).once, attached_of_moves hmoves t,
    complete_of_moves h hmoves⟩

/-! ## §6. A run with changes on both sides of an iterator. -/

/-- An event of level `DEBUG`. -/
def debugEvent : LogEvent where
  m_loggername := []
  m_level := .DEBUG
  m_filename := none
  m_line := 0
  m_elapse := 0
  m_threadid := 0
  m_fiberid := 0
  m_time := 0
  m_threadname := []

/-- A change by the thread `t`: the call and its first `n` steps. -/
def edits (t : Bool) (op : Edit Nat) (n : Nat) : List (LogLabel Bool Nat) :=
  .edit t op :: List.replicate n (.run t)

/-- Two appenders; the thread `false` delivers to the first and stands behind it. -/
def deliveredFirst : List (LogLabel Bool Nat) :=
  edits true (.addAppender 10) 3 ++ edits true (.addAppender 20) 3 ++
    [.log false debugEvent, .run false, .run false, .run false]

/-- Meanwhile the thread `true` appends, and takes the second node out; before it is freed,
the thread `false` has gone on. -/
def appendAndErase : List (LogLabel Bool Nat) :=
  deliveredFirst ++ edits true (.addAppender 30) 3 ++ edits true (.delAppender 20) 2 ++
    [.run false, .run true, .run true, .run false, .run false]

def appendedAndErased : SharedLogger Bool Nat := (exec step {} appendAndErase).get (by decide)

theorem iterators_valid_iff_appendAndErase :
    Guarded step Spares {} appendAndErase ↔
      ∀ t, Always step Untouched {} (appendAndErase ++ [.run t]) :=
  iterators_valid_iff appendAndErase appendedAndErased (Option.some_get _).symm

theorem weakly_consistent_appendAndErase :
    Guarded step Consistent ({} : SharedLogger Bool Nat) appendAndErase :=
  weakly_consistent appendAndErase (by decide)

/-- The thread `false` has delivered to the first and the last. -/
example : appendedAndErased.visited false = [(0, 10), (2, 30)] := by decide

/-- Had the first been erased instead, its node would have been used. -/
example : ¬ Guarded step Spares {} (deliveredFirst ++ edits true (.delAppender 10) 3) := by decide

/-- A `log` that begins when a `clear` has freed the first node, before the header is reset. -/
example : ¬ Guarded step Spares {} (edits true (.addAppender 10) 3 ++ edits true .clearAppender 3 ++
    [.log false debugEvent, .run false, .run false]) := by decide

end SharedLogger

end SylarCot.Log
