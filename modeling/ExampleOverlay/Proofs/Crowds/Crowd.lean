import ExampleOverlay.Proofs.Crowds.Keeps

/-!
# Many clients on one store

A crowd is any number of clients at work in one session, each with what is left of its program. They start
whenever they like, and any of them may make its next access at any time; beside them the registry and the
injected failures may change. The ids that the clients bring along or have minted must all be different.

If every client keeps to a guarantee for itself (`View.Keeps`), then so it does among the others: what one
client does leads the others to a later view (`Crowd.Kept`).
-/

namespace ExampleOverlay

open Program

/-- What a client is there to run, and the ids it brings along for new rows. -/
structure Task where
  Answer : Type
  program : Program Answer
  own : List ItemId := []

/-- A client that runs a task: what is left to run, and what it asked so far, the latest first. -/
structure Agent {Op : Type} (task : Op → Task) where
  op : Op
  rest : Program (task op).Answer
  trace : List Access := []

/-- Clients at work in one session. -/
structure Crowd {Op : Type} (task : Op → Task) where
  session : Session
  agents : List (Agent task) := []
  /-- The clients whose commits went through, in the order of their commits. -/
  accepted : List Nat := []

/-- The id that was minted in an access. -/
def Access.minted? : Access → Option ItemId
  | ⟨.mint, id⟩ => some id
  | _ => none

variable {Op : Type} {task : Op → Task}

/-- The ids that a client has for new rows. -/
def Agent.mine (a : Agent task) : List ItemId := a.trace.filterMap Access.minted? ++ (task a.op).own

/-- The client after an access. -/
def Agent.answered (a : Agent task) (q : Request) (answer : q.Answer)
    (rest : Program (task a.op).Answer) : Agent task :=
  { a with rest, trace := ⟨q, answer⟩ :: a.trace }

namespace Crowd

/-- What happens in a crowd. -/
inductive Event (Op : Type) where
  /-- Another client starts. -/
  | start (op : Op)
  /-- A client makes its next access. -/
  | access (i : Nat)
  | aside (a : Aside)

/-- The crowd after the next access of one of its clients, if that is not done. -/
def access (c : Crowd task) (i : Nat) : Crowd task :=
  match c.agents[i]? with
  | none => c
  | some a =>
    match a.rest with
    | .done _ => c
    | .ask q next =>
      let answer := Session.serve q c.session
      { session := answer.2
        agents := c.agents.set i (a.answered q answer.1 (next answer.1))
        accepted := if Access.isApplied ⟨q, answer.1⟩ then c.accepted ++ [i] else c.accepted }

def after (c : Crowd task) : Event Op → Crowd task
  | .start op => { c with agents := c.agents ++ [{ op, rest := (task op).program }] }
  | .access i => c.access i
  | .aside a => { c with session := { c.session with world := c.session.world.aside a } }

/-- A crowd that another one leads to by events that are allowed where they happen. -/
inductive Reaches (allowed : Crowd task → Event Op → Prop) (c : Crowd task) : Crowd task → Prop
  | refl : Reaches allowed c c
  | step {d : Crowd task} (e : Event Op) : Reaches allowed c d → allowed d e → Reaches allowed c (d.after e)

/-- The ids that clients brought along and those that were minted. -/
def ids (c : Crowd task) : List ItemId := c.agents.flatMap (fun a => (task a.op).own) ++ c.session.minted

/-- What a client is there to run. -/
def op? (c : Crowd task) (i : Nat) : Option Op := (c.agents[i]?).map (·.op)

/-- What a client sees. -/
def view (c : Crowd task) (used : Kind → ItemId → Prop) (relinks : Prop) (a : Agent task) : View :=
  ⟨c.session, used, a.mine, a.trace, relinks⟩

variable {c : Crowd task} {i : Nat} {a : Agent task} {q : Request}
  {next : q.Answer → Program (task a.op).Answer}
  {used : Kind → ItemId → Prop} {relinks : Prop}

/-! ## One access -/

theorem access_eq (ha : c.agents[i]? = some a) (hrest : a.rest = .ask q next) :
    c.access i = {
      session := (Session.serve q c.session).2
      agents := c.agents.set i (a.answered q (Session.serve q c.session).1 (next (Session.serve q c.session).1))
      accepted := if Access.isApplied ⟨q, (Session.serve q c.session).1⟩ then c.accepted ++ [i]
        else c.accepted } := by
  unfold access
  rw [ha]
  dsimp only
  rw [hrest]

/-- An access does nothing, or there is a client to make it. -/
theorem access_cases (c : Crowd task) (i : Nat) : c.access i = c ∨
    ∃ (a : Agent task) (q : Request) (next : q.Answer → Program (task a.op).Answer),
      c.agents[i]? = some a ∧ a.rest = .ask q next := by
  cases ha : c.agents[i]? with
  | none => exact Or.inl (by rw [access, ha])
  | some a =>
    cases hrest : a.rest with
    | ask q next => exact Or.inr ⟨a, q, next, rfl, hrest⟩
    | done r =>
      refine Or.inl ?_
      unfold access
      rw [ha]
      dsimp only
      rw [hrest]

/-- The clients after an access: one has been answered. -/
theorem getElem?_access (ha : c.agents[i]? = some a) (hrest : a.rest = .ask q next) (j : Nat) :
    (c.access i).agents[j]? = if i = j then
      some (a.answered q (Session.serve q c.session).1 (next (Session.serve q c.session).1))
      else c.agents[j]? := by
  have hi : i < c.agents.length := (List.getElem?_eq_some_iff.1 ha).1
  rw [access_eq ha hrest, List.getElem?_set]
  by_cases h : i = j
  · subst h; simp [hi]
  · simp [h]

/-- The clients after a start: one more. -/
theorem getElem?_start {op : Op} {j : Nat} {b : Agent task} (hb : (c.after (.start op)).agents[j]? = some b) :
    c.agents[j]? = some b ∨ j = c.agents.length ∧ b = { op, rest := (task op).program } := by
  have hb' : (c.agents ++ [({ op, rest := (task op).program } : Agent task)])[j]? = some b := hb
  rcases Nat.lt_trichotomy j c.agents.length with hj | hj | hj
  · rw [List.getElem?_append_left hj] at hb'
    exact Or.inl hb'
  · subst hj
    simp at hb'
    exact Or.inr ⟨rfl, hb'.symm⟩
  · rw [List.getElem?_eq_none (by simp; omega)] at hb'
    cases hb'

theorem getElem?_start_of_some {j : Nat} {b : Agent task} (hb : c.agents[j]? = some b) (op : Op) :
    (c.after (.start op)).agents[j]? = some b := by
  show (c.agents ++ [_])[j]? = some b
  rw [List.getElem?_append_left (List.getElem?_eq_some_iff.1 hb).1, hb]

/-- An access that neither mints nor commits changes nothing that is stored. -/
theorem serve_cases (q : Request) (s : Session) : q = .mint ∨ (∃ b, q = .commit b ∧ s.store.fault? b = none) ∨
    (Session.serve q s).2 = s ∧ Access.isApplied ⟨q, (Session.serve q s).1⟩ = false := by
  cases q with
  | mint => exact Or.inl rfl
  | commit b =>
    refine Or.inr ?_
    cases hf : s.store.fault? b with
    | none => exact Or.inl ⟨b, rfl, hf⟩
    | some e =>
      refine Or.inr ?_
      rw [Session.serve_commit, Store.commit_eq, hf]
      exact ⟨rfl, rfl⟩
  | _ => exact Or.inr (Or.inr ⟨rfl, rfl⟩)

/-- Clients stay what they are. -/
theorem op?_after {i : Nat} {op : Op} (h : c.op? i = some op) (e : Event Op) : (c.after e).op? i = some op := by
  obtain ⟨a, ha, rfl⟩ := Option.map_eq_some_iff.1 h
  cases e with
  | start op =>
    rw [op?, getElem?_start_of_some ha op]
    rfl
  | aside e => exact h
  | access j =>
    rcases access_cases c j with hc | ⟨b, q, next, hb, hrest⟩
    · rw [after, hc]
      exact h
    · rw [op?, after, getElem?_access hb hrest]
      split
      next hji =>
        subst hji
        rw [hb, Option.some.injEq] at ha
        rw [← ha]
        rfl
      · rw [ha]; rfl

theorem map_op?_after {is : List Nat} {ops : List Op} (h : is.map c.op? = ops.map some) (e : Event Op) :
    is.map (c.after e).op? = ops.map some := by
  rw [← h]
  refine List.map_congr_left fun i hi => ?_
  have hm : c.op? i ∈ ops.map some := h ▸ List.mem_map_of_mem hi
  obtain ⟨op, -, hop⟩ := List.mem_map.1 hm
  rw [← hop, op?_after hop.symm e]

/-! ## Commits that went through -/

/-- A client listed with the commits that went through has made one. -/
def Counted (c : Crowd task) : Prop :=
  ∀ i ∈ c.accepted, ∃ a, c.agents[i]? = some a ∧ 0 < a.trace.countP Access.isApplied

theorem accepted_access {b : Batch} {next : Option StoreError → Program (task a.op).Answer}
    (ha : c.agents[i]? = some a) (hrest : a.rest = .ask (.commit b) next)
    (hf : c.session.store.fault? b = none) :
    (c.access i).accepted = c.accepted ++ [i] := by
  have hserve : (Session.serve (.commit b) c.session).1 = none := by
    rw [Session.serve_commit, Store.commit_eq, hf]
  rw [access_eq ha hrest, hserve]
  rfl

theorem Counted.access (h : c.Counted) (i : Nat) : (c.access i).Counted := by
  rcases access_cases c i with hc | ⟨a, q, next, ha, hrest⟩
  · rw [hc]
    exact h
  intro j hj
  rw [getElem?_access ha hrest]
  split
  next hij =>
    refine ⟨_, rfl, ?_⟩
    rw [Agent.answered, List.countP_cons]
    by_cases hq : Access.isApplied ⟨q, (Session.serve q c.session).1⟩ = true
    · rw [if_pos hq]
      omega
    · -- the client was listed before this access
      rw [access_eq ha hrest, if_neg hq, ← hij] at hj
      obtain ⟨b, hb, hpos⟩ := h i hj
      rw [ha, Option.some.injEq] at hb
      rw [hb]
      omega
  next hij =>
    refine h j ?_
    rw [access_eq ha hrest] at hj
    split at hj
    · exact (List.mem_append.1 hj).resolve_right fun hji => hij (List.mem_singleton.1 hji).symm
    · exact hj

theorem Counted.start (h : c.Counted) (op : Op) : (c.after (.start op)).Counted := fun i hi => by
  obtain ⟨a, ha, hpos⟩ := h i hi
  exact ⟨a, getElem?_start_of_some ha op, hpos⟩

theorem Counted.not_mem (h : c.Counted) (ha : c.agents[i]? = some a)
    (hzero : a.trace.countP Access.isApplied = 0) : i ∉ c.accepted := by
  intro hi
  obtain ⟨b, hb, hpos⟩ := h i hi
  rw [ha, Option.some.injEq] at hb
  rw [← hb, hzero] at hpos
  exact Nat.lt_irrefl 0 hpos

/-! ## Ids -/

theorem own_access (ha : c.agents[i]? = some a) (hrest : a.rest = .ask q next) :
    (c.access i).agents.flatMap (fun a => (task a.op).own) = c.agents.flatMap (fun a => (task a.op).own) := by
  have hown : (c.agents.set i
      (a.answered q (Session.serve q c.session).1 (next (Session.serve q c.session).1))).map
        (fun a => (task a.op).own) = c.agents.map (fun a => (task a.op).own) := by
    obtain ⟨hi, rfl⟩ := List.getElem?_eq_some_iff.1 ha
    rw [List.map_set]
    refine List.ext_getElem (by simp) fun j hj _ => ?_
    by_cases h : i = j
    · subst h; simp [Agent.answered]
    · simp [h]
  rw [access_eq ha hrest, List.flatMap_def, List.flatMap_def, hown]

/-- Ids that clients brought along and ids that were minted stay recorded. -/
theorem ids_after (c : Crowd task) (e : Event Op) : c.ids.Sublist (c.after e).ids := by
  cases e with
  | start op =>
    refine List.Sublist.append ?_ (List.Sublist.refl _)
    show (c.agents.flatMap _).Sublist ((c.agents ++ [_]).flatMap _)
    rw [List.flatMap_append]
    exact List.sublist_append_left _ _
  | aside a => exact List.Sublist.refl _
  | access i =>
    rcases access_cases c i with hc | ⟨a, q, next, ha, hrest⟩
    · rw [after, hc]
    · refine List.Sublist.append ?_ ?_
      · rw [after, own_access ha hrest]
      · rw [after, access_eq ha hrest]
        exact (Session.serve_minted q c.session).sublist

/-- A client's view. -/
theorem view_access (c : Crowd task) (used : Kind → ItemId → Prop) (relinks : Prop) (a : Agent task)
    (q : Request) (next : q.Answer → Program (task a.op).Answer) : (c.view used relinks a).asked q =
      ⟨(Session.serve q c.session).2, ((c.view used relinks a).asked q).used,
        (a.answered q (Session.serve q c.session).1 (next (Session.serve q c.session).1)).mine,
        (a.answered q (Session.serve q c.session).1 (next (Session.serve q c.session).1)).trace, relinks⟩ := by
  cases q <;> rfl

theorem Reaches.ids_sublist {allowed : Crowd task → Event Op → Prop} {d : Crowd task}
    (h : c.Reaches allowed d) :
    c.ids.Sublist d.ids := by
  induction h with
  | refl => exact List.Sublist.refl _
  | step e _ _ ih => exact ih.trans (ids_after _ e)

/-- **What every event keeps** holds of all that is reached, as long as the ids are all different. -/
theorem Reaches.keeps {P : Crowd task → Prop} {allowed : Crowd task → Event Op → Prop} {d : Crowd task}
    (hc : P c) (hstep : ∀ d e, P d → allowed d e → (d.after e).ids.Nodup → P (d.after e))
    (h : c.Reaches allowed d) (hnd : d.ids.Nodup) : P d := by
  induction h with
  | refl => exact hc
  | step e _ he ih => exact hstep _ e (ih (hnd.sublist (ids_after _ e))) he hnd

/-- A crowd reaches what a list of events leads to that are always allowed. -/
theorem Reaches.foldl {allowed : Crowd task → Event Op → Prop} {d : Crowd task} (es : List (Event Op))
    (h : c.Reaches allowed d) (hes : ∀ e ∈ es, ∀ d, allowed d e) : c.Reaches allowed (es.foldl after d) := by
  induction es generalizing d with
  | nil => exact h
  | cons e es ih =>
    exact ih (h.step e (hes e List.mem_cons_self d)) fun e' he' => hes e' (List.mem_cons_of_mem _ he')

/-! ## Clients that keep to a guarantee -/

/-- Lists are in order, clients have ids of their own, and what is left of each program keeps to the
guarantee of its client. -/
structure Kept (G : Op → View → View → Prop) (Q : (op : Op) → Except EngineError (task op).Answer → View → Prop)
    (relinks : Prop) (used : Kind → ItemId → Prop) (c : Crowd task) : Prop where
  ordered : c.session.store.Ordered
  stored : ∀ {k id r}, c.session.store.get? k id = some r → used k id
  seen : ∀ {k id}, used k id → id ∈ c.ids
  owned : ∀ {i : Nat} {a : Agent task}, c.agents[i]? = some a → ∀ id ∈ a.mine, id ∈ c.ids
  apart : ∀ {i j : Nat} {a b : Agent task}, c.agents[i]? = some a → c.agents[j]? = some b → i ≠ j →
    ∀ id ∈ a.mine, id ∉ b.mine
  keeps : ∀ {i : Nat} {a : Agent task}, c.agents[i]? = some a → ∀ q next, a.rest = .ask q next →
    View.Keeps (G a.op) (Q a.op) (.ask q next) (c.view used relinks a)

variable {G : Op → View → View → Prop} {Q : (op : Op) → Except EngineError (task op).Answer → View → Prop}

theorem Kept.good (h : c.Kept G Q relinks used) (a : Agent task) :
    (c.view used relinks a).Good := ⟨h.ordered, h.stored⟩

/-- An id that was minted is new. -/
theorem not_mem_ids_of_mint {next : ItemId → Program (task a.op).Answer} (ha : c.agents[i]? = some a)
    (hrest : a.rest = .ask .mint next) (hnd : (c.access i).ids.Nodup) :
    (Session.serve .mint c.session).1 ∉ c.ids := by
  rw [ids, own_access ha hrest, access_eq ha hrest] at hnd
  obtain ⟨-, hm, hd⟩ := List.nodup_append.1 hnd
  have hm' : ((Session.serve .mint c.session).1 :: c.session.minted).Nodup := hm
  intro hid
  rcases List.mem_append.1 hid with hid | hid
  · exact hd _ hid _ List.mem_cons_self rfl
  · exact (List.nodup_cons.1 hm').1 hid

/-- An id that was minted is nobody's, and nothing was stored under it. -/
theorem Kept.admits (h : c.Kept G Q relinks used) (ha : c.agents[i]? = some a) (hrest : a.rest = .ask q next)
    (hnd : (c.access i).ids.Nodup) : (c.view used relinks a).Admits q := by
  cases q with
  | mint =>
    have hnew := not_mem_ids_of_mint ha hrest hnd
    exact ⟨fun hid => hnew (h.owned ha _ hid), fun k hu => hnew (h.seen hu)⟩
  | _ => exact True.intro

/-- The ids of a client after an access are those it had before and one that was minted. -/
theorem mem_mine_answered (ha : c.agents[i]? = some a) (hrest : a.rest = .ask q next)
    (hnd : (c.access i).ids.Nodup) {id : ItemId}
    (hid : id ∈ (a.answered q (Session.serve q c.session).1 (next (Session.serve q c.session).1)).mine) :
    id ∈ a.mine ∨ id ∉ c.ids ∧ id ∈ (c.access i).ids := by
  cases q with
  | mint =>
    rcases List.mem_cons.1 hid with rfl | hid
    · refine Or.inr ⟨not_mem_ids_of_mint ha hrest hnd, List.mem_append_right _ ?_⟩
      rw [access_eq ha hrest]
      exact List.mem_cons_self
    · exact Or.inl hid
  | _ => exact Or.inl hid

/-- **One access of a client** leaves everyone keeping to their guarantees. What the client changes is as
guaranteed, and so is its result, if it is done. -/
theorem Kept.access (h : c.Kept G Q relinks used) (ha : c.agents[i]? = some a) (hrest : a.rest = .ask q next)
    (hnd : (c.access i).ids.Nodup) :
    (c.access i).Kept G Q relinks ((c.view used relinks a).asked q).used ∧
      View.Promises (G a.op) (c.view used relinks a) q ∧
      ∀ r, next (Session.serve q c.session).1 = .done r → Q a.op r ((c.view used relinks a).asked q) := by
  have hv := h.good a
  obtain ⟨hc, hnext⟩ := h.keeps ha q next hrest _ (.refl hv) (h.admits ha hrest hnd)
  have hstep := View.step_asked hv hc
  have hview := view_access c used relinks a q next
  have hsub := (ids_after c (.access i)).subset
  have hsession : (c.access i).session = (Session.serve q c.session).2 := by rw [access_eq ha hrest]
  have hget := getElem?_access ha hrest
  refine ⟨⟨?_, ?_, fun hu => ?_, ?_, ?_, ?_⟩, hc, fun r hr => ?_⟩
  · rw [hsession]
    exact hstep.good.ordered
  · rw [hsession]
    exact hstep.good.used
  · exact hsub ((hstep.new hu).elim h.seen (h.owned ha _))
  · intro j b hb id hid
    rw [hget] at hb
    split at hb
    · cases hb
      exact (mem_mine_answered ha hrest hnd hid).elim (fun hid => hsub (h.owned ha _ hid)) And.right
    · exact hsub (h.owned hb _ hid)
  · intro j j' b b' hb hb' hne id hid hid'
    rw [hget] at hb hb'
    split at hb <;> split at hb'
    next hj hj' => exact hne (hj ▸ hj' ▸ rfl)
    next hj hj' =>
      cases hb
      rcases mem_mine_answered ha hrest hnd hid with hid | ⟨hid, -⟩
      · exact h.apart ha hb' hj' _ hid hid'
      · exact hid (h.owned hb' _ hid')
    next hj hj' =>
      cases hb'
      rcases mem_mine_answered ha hrest hnd hid' with hid' | ⟨hid', -⟩
      · exact h.apart ha hb hj _ hid' hid
      · exact hid' (h.owned hb _ hid)
    next hj hj' => exact h.apart hb hb' hne _ hid hid'
  · intro j b hb q' next' hrest'
    rw [hget] at hb
    rw [view, hsession]
    split at hb
    · cases hb
      rw [← hrest', ← hview]
      exact hnext
    next hj =>
      have hlater := hstep.later (fun id hid hid' => h.apart ha hb hj id hid' hid) b.trace
      exact (h.keeps hb q' next' hrest').later hlater
  · rw [show (Session.serve q c.session).1 = ((c.view used relinks a).answer q).1 from rfl] at hr
    rw [hr] at hnext
    exact hnext

/-- A task keeps to a guarantee from wherever it is started. -/
def Honours (G : View → View → Prop) (t : Task) (Q : Except EngineError t.Answer → View → Prop)
    (relinks : Prop) : Prop :=
  ∀ v : View, v.Good → v.relinks = relinks → v.trace = [] → v.mine = t.own →
    (∀ k, ∀ id ∈ t.own, ¬ v.used k id) →
    View.Keeps G Q t.program v

/-- **A client starts**, with ids that are new. -/
theorem Kept.start (h : c.Kept G Q relinks used) {op : Op} (hnd : (c.after (.start op)).ids.Nodup)
    (hop : Honours (G op) (task op) (Q op) relinks) : (c.after (.start op)).Kept G Q relinks used := by
  have hsub := (ids_after c (.start op)).subset
  have hown : ∀ id ∈ (task op).own, id ∉ c.ids ∧ id ∈ (c.after (.start op)).ids := by
    have hids : (c.after (.start op)).ids =
        (c.agents.flatMap (fun a => (task a.op).own) ++ (task op).own) ++ c.session.minted := by
      rw [ids]
      refine congrArg (· ++ c.session.minted) ?_
      show (c.agents ++ [_]).flatMap _ = _
      rw [List.flatMap_append]
      simp
    rw [hids] at hnd ⊢
    obtain ⟨hl, -, hd⟩ := List.nodup_append.1 hnd
    intro id hid
    refine ⟨fun hm => ?_, List.mem_append_left _ (List.mem_append_right _ hid)⟩
    rcases List.mem_append.1 hm with hm | hm
    · exact (List.nodup_append.1 hl).2.2 id hm id hid rfl
    · exact hd id (List.mem_append_right _ hid) id hm rfl
  refine ⟨h.ordered, h.stored, fun hu => hsub (h.seen hu), fun {j b} hb id hid => ?_,
    fun {j j' b b'} hb hb' hne id hid hid' => ?_,
    fun {j b} hb q next hrest => ?_⟩
  · rcases getElem?_start hb with hb | ⟨-, rfl⟩
    · exact hsub (h.owned hb id hid)
    · exact (hown id hid).2
  · rcases getElem?_start hb with hb | ⟨hj, rfl⟩ <;> rcases getElem?_start hb' with hb' | ⟨hj', rfl⟩
    · exact h.apart hb hb' hne id hid hid'
    · exact (hown id hid').1 (h.owned hb id hid)
    · exact (hown id hid).1 (h.owned hb' id hid')
    · exact hne (hj.trans hj'.symm)
  · rcases getElem?_start hb with hb | ⟨-, rfl⟩
    · exact h.keeps hb q next hrest
    · rw [← hrest]
      exact hop _ (h.good _) rfl rfl rfl fun k id hid hu => (hown id hid).1 (h.seen hu)

/-- Nobody counts on what changes beside the clients. -/
theorem Kept.aside (h : c.Kept G Q relinks used) (e : Aside) : (c.after (.aside e)).Kept G Q relinks used := by
  have htables : (c.after (.aside e)).session.store.tables = c.session.store.tables := Session.tables_aside _ e
  have hlater :
      ∀ a : Agent task, (c.view used relinks a).Later ((c.after (.aside e)).view used relinks a) := fun a =>
    View.later_of_tables_eq (h.good a) htables
  refine ⟨h.ordered.of_tables_eq htables, fun hr => ?_, h.seen, h.owned, h.apart,
    fun {j b} hb q next hrest => ?_⟩
  · rw [Store.get?, Store.table, htables] at hr
    exact h.stored hr
  · exact (h.keeps hb q next hrest).later (hlater b)

/-- **Whatever happens next**, everyone keeps to their guarantees. -/
theorem Kept.after (h : c.Kept G Q relinks used) (e : Event Op) (hnd : (c.after e).ids.Nodup)
    (hop : ∀ op, e = .start op → Honours (G op) (task op) (Q op) relinks) :
    ∃ used', (c.after e).Kept G Q relinks used' := by
  cases e with
  | start op => exact ⟨used, h.start hnd (hop op rfl)⟩
  | aside e => exact ⟨used, h.aside e⟩
  | access i =>
    rcases access_cases c i with hc | ⟨a, q, next, ha, hrest⟩
    · rw [Crowd.after, hc]
      exact ⟨used, h⟩
    · exact ⟨_, (h.access ha hrest hnd).1⟩

/-- Nobody is there yet. -/
theorem kept_start (registry : Registry) (supply : Nat → BitVec 128) :
    ({ session := Session.start registry supply } : Crowd task).Kept G Q relinks fun _ _ => False where
  ordered := Store.Ordered.empty
  stored hr := by
    rw [Store.get?, show (Session.start registry supply).store = {} from rfl, Store.table_empty,
      Table.get?_empty] at hr
    cases hr
  seen hu := hu.elim
  owned ha := by simp at ha
  apart ha := by simp at ha
  keeps ha := by simp at ha

end Crowd

end ExampleOverlay
