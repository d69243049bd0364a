import ExampleOverlay.Proofs.Crowds.Serial
import ExampleOverlay.Proofs.Races.Edits

/-!
# Attempts at an edit

Before every access of an edit, other clients may commit what they like. The edit then makes one attempt
after another, each of which reads, plans, and commits at most once, as its last access (`Edit.Ends`). It is
made again after a version conflict and after nothing else, so that a batch that was applied is never followed
by another one: an edit that fails has changed nothing, and one that succeeds has changed its list once, or
not at all if it tells so (`Edit.attempted`).
-/

namespace ExampleOverlay

open Program

variable {α β : Type} {k : Kind}

/-! ## Accesses to a contended world -/

/-- The access commits a batch. -/
def Access.isCommit (a : Access) : Bool :=
  match a.request with
  | .commit _ => true
  | _ => false

/-- An access of a program, with what it found stored and what it left. -/
structure Visit extends Access where
  found : Store
  left : Store

namespace Visit

/-- A batch was applied or refused, or the access was none to commit. -/
inductive Served : Visit → Prop
  | applied {b : Batch} {s : Store} : s.fault? b = none → Served ⟨⟨.commit b, none⟩, s, s.accept b⟩
  | refused {b : Batch} {s : Store} {e : StoreError} : s.fault? b = some e → Served ⟨⟨.commit b, some e⟩, s, s⟩
  | read {a : Access} {s : Store} : a.isCommit = false → Served ⟨a, s, s⟩

/-- A list was read. -/
def Scans (v : Visit) (owner : ExampleId) (list : Chain k) : Prop :=
  v.request = .scan k owner ∧ v.found.chain k owner = .ok list

/-- A batch came too late: a list was no longer at the version it was planned on. -/
def Overtaken (v : Visit) : Prop :=
  ∃ b owner planned, v.request = .commit b ∧ Guard.version owner planned ∈ b.guards ∧
    v.found.version b.kind owner ≠ planned

theorem isApplied_of_read {v : Visit} (h : v.isCommit = false) : v.isApplied = false := by
  obtain ⟨⟨q, answer⟩, found, left⟩ := v
  cases q with
  | commit b => cases h
  | _ => rfl

end Visit

/-- An access changes what is stored just by having its batch applied. -/
theorem Visit.Served.left_eq {v : Visit} (h : v.Served) :
    if v.isApplied then v.left.commits = v.found.commits + 1 else v.left = v.found := by
  cases h with
  | applied _ => rfl
  | refused _ => rfl
  | read hread => rw [if_neg (by rw [Visit.isApplied_of_read hread]; simp)]

/-- A conflict tells of a list that has moved on. -/
theorem Store.overtaken_of_conflict {s : Store} {b : Batch} {kind : Kind} {owner : ExampleId}
    {expected actual : Nat} (h : s.fault? b = some (.conflict kind owner expected actual)) :
    Guard.version owner expected ∈ b.guards ∧ s.version b.kind owner ≠ expected := by
  rw [fault?_eq] at h
  have htable : (s.table b.kind).fault? b = some (.conflict kind owner expected actual) := by
    unfold injected? at h
    cases hfind : b.writes.find? fun w => s.failing.contains w.id <;> rw [hfind] at h
    · exact h
    · cases h
  rw [Table.fault?, Option.orElse_eq_orElse, Option.orElse_eq_or, Option.or_eq_some_iff] at htable
  rcases htable with hguard | ⟨-, hwrite⟩
  · obtain ⟨g, hg, hfault⟩ := List.exists_of_findSome?_eq_some hguard
    cases g with
    | version o n =>
      rw [Table.guardFault?] at hfault
      split at hfault
      · cases hfault
      next hne => cases hfault; exact ⟨hg, hne⟩
    | present id => rw [Table.guardFault?] at hfault; split at hfault <;> cases hfault
    | absent id => rw [Table.guardFault?] at hfault; split at hfault <;> cases hfault
  · -- what is wrong with a write is no conflict
    obtain ⟨w, -, hfault⟩ := List.exists_of_findSome?_eq_some hwrite
    cases w with
    | delete id => cases hfault
    | put r => grind [Table.writeFault?]

namespace Contended

/-- The next access of a program, once other clients have been let in. -/
def visit (c : Contended) (q : Request) : Visit where
  request := q
  answer := (serve q c).1
  found := (c.await q).world.store
  left := (serve q c).2.world.store

/-- The accesses of a program in turn. -/
def visits (c : Contended) : Program α → List Visit
  | .done _ => []
  | .ask q next => c.visit q :: visits (serve q c).2 (next (serve q c).1)

theorem visit_of_fault {c : Contended} {b : Batch} {e : StoreError}
    (h : (c.await (.commit b)).world.store.fault? b = some e) :
    (serve (.commit b) c).1 = some e ∧ c.visit (.commit b) =
      ⟨⟨.commit b, some e⟩, (c.await (.commit b)).world.store, (c.await (.commit b)).world.store⟩ := by
  have hcommit : (c.await (.commit b)).world.commit b = (some e, (c.await (.commit b)).world) := by
    rw [World.commit, Store.commit_eq, h]
  refine ⟨congrArg Prod.fst hcommit, ?_⟩
  show (⟨⟨.commit b, ((c.await (.commit b)).world.commit b).1⟩, _,
    ((c.await (.commit b)).world.commit b).2.store⟩ : Visit) = _
  rw [hcommit]

theorem visit_of_accept {c : Contended} {b : Batch} (h : (c.await (.commit b)).world.store.fault? b = none) :
    (serve (.commit b) c).1 = none ∧ c.visit (.commit b) =
      ⟨⟨.commit b, none⟩, (c.await (.commit b)).world.store, (c.await (.commit b)).world.store.accept b⟩ := by
  have hcommit : (c.await (.commit b)).world.commit b = (none,
      { (c.await (.commit b)).world with store := (c.await (.commit b)).world.store.accept b }) := by
    rw [World.commit, Store.commit_eq, h]
  refine ⟨congrArg Prod.fst hcommit, ?_⟩
  show (⟨⟨.commit b, ((c.await (.commit b)).world.commit b).1⟩, _,
    ((c.await (.commit b)).world.commit b).2.store⟩ : Visit) = _
  rw [hcommit]

theorem served_visit (c : Contended) (q : Request) : (c.visit q).Served := by
  cases q with
  | commit b =>
    cases hf : (c.await (.commit b)).world.store.fault? b with
    | none => exact (visit_of_accept hf).2 ▸ .applied hf
    | some e => exact (visit_of_fault hf).2 ▸ .refused hf
  | _ => exact .read rfl

theorem served_visits (p : Program α) (c : Contended) : ∀ v ∈ c.visits p, v.Served := by
  induction p generalizing c with
  | done r => exact fun v hv => absurd hv List.not_mem_nil
  | ask q next ih =>
    intro v hv
    rcases List.mem_cons.1 hv with rfl | hv
    · exact served_visit c q
    · exact ih _ _ v hv

/-! ## What a program does whatever the others do -/

/-- Whatever the others do, the accesses of a program and its result are in `R`. -/
def Yields (R : List Visit → Except EngineError α → Prop) (p : Program α) : Prop :=
  ∀ c : Contended, R (c.visits p) (c.run p).1

theorem visits_bind (p : Program α) (f : α → Program β) (c : Contended) :
    c.visits (p >>= f) = c.visits p ++ match c.run p with
      | (.ok a, d) => d.visits (f a)
      | (.error _, _) => [] := by
  induction p generalizing c with
  | done r => cases r <;> rfl
  | ask q next ih => exact congrArg (c.visit q :: ·) (ih _ _)

theorem visits_outcome (p : Program α) (c : Contended) : c.visits p.outcome = c.visits p := by
  induction p generalizing c with
  | done r => rfl
  | ask q next ih => exact congrArg (c.visit q :: ·) (ih _ _)

variable {R : List Visit → Except EngineError α → Prop} {p : Program α}

/-- Programs in sequence. -/
theorem Yields.bind {R : List Visit → Except EngineError β → Prop} {f : α → Program β}
    (h : Yields (fun vs r => match r with
      | .ok a => Yields (fun ws => R (vs ++ ws)) (f a)
      | .error e => R vs (.error e)) p) : Yields R (p >>= f) := by
  intro c
  have hc := h c
  rw [visits_bind]
  unfold run at hc ⊢
  rw [run_bind]
  rcases hrun : p.run serve c with ⟨r, d⟩
  rw [hrun] at hc
  cases r with
  | ok a => exact hc d
  | error e =>
    rw [List.append_nil]
    exact hc

theorem yields_done {r : Except EngineError α} (h : R [] r) : Yields R (.done r) := fun _ => h

theorem yields_ask {q : Request} {next : q.Answer → Program α}
    (h : ∀ c : Contended, Yields (fun ws => R (c.visit q :: ws)) (next (serve q c).1)) :
    Yields R (.ask q next) := fun c => h c _

end Contended

namespace EngineError

/-- The error neither has an attempt made again nor says that there were too many. -/
def isFinal : EngineError → Bool
  | .store (.conflict ..) | .retriesExhausted .. => false
  | _ => true

theorem isConflict_of_isFinal {e : EngineError} (h : e.isFinal = true) : e.isConflict = false := by
  unfold isConflict
  split
  · cases h
  · rfl

end EngineError

namespace Contended

theorem yields_get {R : List Visit → Except EngineError (Item k) → Prop} (id : ItemId)
    (hok : ∀ v i, v.isCommit = false → R [v] (.ok i))
    (herr : ∀ v e, v.isCommit = false → e.isFinal = true → R [v] (.error e)) : Yields R (Program.get k id) := by
  refine Yields.bind (yields_ask fun c => ?_)
  have hread : (c.visit (.get k id)).isCommit = false := rfl
  generalize (serve (.get k id) c).1 = answer
  cases answer with
  | none => exact yields_done (yields_done (herr _ _ hread rfl))
  | some record =>
    dsimp only
    cases Record.toItem k record with
    | ok i => exact yields_done (yields_done (hok _ i hread))
    | error e => exact yields_done (herr _ _ hread rfl)

theorem yields_chain {R : List Visit → Except EngineError (Chain k) → Prop} (owner : ExampleId)
    (hok : ∀ v list, v.isCommit = false → v.Scans owner list → R [v] (.ok list))
    (herr : ∀ v e, v.isCommit = false → e.isFinal = true → R [v] (.error e)) :
    Yields R (Program.chain k owner) := by
  rw [Session.chain_eq_ask]
  refine yields_ask fun c => yields_done ?_
  have hread : (c.visit (.scan k owner)).isCommit = false := rfl
  show R _ ((c.await (.scan k owner)).world.store.chain k owner)
  cases hlist : (c.await (.scan k owner)).world.store.chain k owner with
  | ok list => exact hok _ list hread ⟨rfl, hlist⟩
  | error e =>
    refine herr _ e hread ?_
    unfold Store.chain at hlist
    split at hlist
    · cases hlist; rfl
    split at hlist
    · cases hlist; rfl
    · cases hlist

theorem yields_commit {R : List Visit → Except EngineError Unit → Prop} (d : Draft k)
    (hok : ∀ s : Store, s.fault? d.toBatch = none →
      R [⟨⟨.commit d.toBatch, none⟩, s, s.accept d.toBatch⟩] (.ok ()))
    (herr : ∀ (s : Store) e, s.fault? d.toBatch = some e →
      R [⟨⟨.commit d.toBatch, some e⟩, s, s⟩] (.error (.store e))) : Yields R (commit d) := by
  refine yields_ask fun c => ?_
  cases hf : (c.await (.commit d.toBatch)).world.store.fault? d.toBatch with
  | none =>
    obtain ⟨hanswer, hvisit⟩ := visit_of_accept hf
    rw [hanswer, hvisit]
    exact yields_done (hok _ hf)
  | some e =>
    obtain ⟨hanswer, hvisit⟩ := visit_of_fault hf
    rw [hanswer, hvisit]
    exact yields_done (herr _ e hf)

/-! ## Attempts -/

/-- An attempt at a program: its accesses, and how it ended. -/
structure Try (α : Type) where
  visits : List Visit
  result : Except EngineError α

/-- The attempt ended in a version conflict. -/
def Try.conflicted (t : Try α) : Bool :=
  match t.result with
  | .error e => e.isConflict
  | .ok _ => false

theorem Try.conflicted_iff {t : Try α} :
    t.conflicted = true ↔ ∃ err, t.result = .error err ∧ err.isConflict = true := by
  unfold Try.conflicted
  cases t.result <;> simp

/-- The first attempts at a program, made one after another. -/
def tries (c : Contended) (p : Program α) : Nat → List (Try α)
  | 0 => []
  | n + 1 => ⟨c.visits p, (c.run p).1⟩ :: tries (c.run p).2 p n

@[simp] theorem length_tries (p : Program α) : ∀ (n : Nat) (c : Contended), (c.tries p n).length = n
  | 0, _ => rfl
  | n + 1, c => congrArg (· + 1) (length_tries p n (c.run p).2)

/-- Accesses that no attempt makes more often than `m` times. -/
theorem countP_flatMap_le {P : Visit → Bool} {m : Nat} : ∀ {ts : List (Try α)},
    (∀ t ∈ ts, t.visits.countP P ≤ m) → (ts.flatMap (·.visits)).countP P ≤ ts.length * m
  | [], _ => Nat.zero_le _
  | t :: ts, h => by
    have ht := h t List.mem_cons_self
    have hts := countP_flatMap_le fun u hu => h u (List.mem_cons_of_mem t hu)
    rw [List.flatMap_cons, List.countP_append, List.length_cons, Nat.succ_mul]
    omega

/-- What a program does in every run it does in every attempt. -/
theorem Yields.tries {R : List Visit → Except EngineError α → Prop} {p : Program α} (h : Yields R p) :
    ∀ (n : Nat) (c : Contended), ∀ t ∈ c.tries p n, R t.visits t.result
  | 0, _, _, ht => absurd ht List.not_mem_nil
  | n + 1, c, t, ht => by
    rcases List.mem_cons.1 ht with rfl | ht
    · exact h c
    · exact h.tries n _ t ht

/-- A program is made of `n` of up to `left` attempts, each made again after a conflict and only then. -/
structure Retries (c : Contended) (q p : Program α) (operation : Operation) (attempts left n : Nat) : Prop where
  le : n ≤ left
  visits : c.visits q = (c.tries p n).flatMap (·.visits)
  again : ∀ i t, (c.tries p n)[i]? = some t → (i + 1 < n ↔ t.conflicted = true ∧ i + 1 < left)
  result : (n = left ∧ (∀ t ∈ c.tries p n, t.conflicted = true) ∧
      (c.run q).1 = .error (.retriesExhausted operation attempts)) ∨
    ∃ t, (c.tries p n).getLast? = some t ∧ t.conflicted = false ∧ (c.run q).1 = t.result

variable {c : Contended} {p q : Program α} {operation : Operation} {attempts left n : Nat}

theorem Retries.pos (h : c.Retries q p operation attempts left n) (hleft : 0 < left) : 0 < n := by
  rcases h.result with ⟨rfl, -⟩ | ⟨t, ht, -⟩
  · exact hleft
  · cases n with
    | zero => cases ht
    | succ n => exact Nat.succ_pos n

/-- One more attempt in front of some. -/
theorem Retries.cons {q' : Program α} (h : (c.run p).2.Retries q p operation attempts left n)
    (hconflict : Try.conflicted ⟨c.visits p, (c.run p).1⟩ = true)
    (hvisits : c.visits q' = c.visits p ++ (c.run p).2.visits q)
    (hrun : (c.run q').1 = ((c.run p).2.run q).1) : c.Retries q' p operation attempts (left + 1) (n + 1) where
  le := Nat.succ_le_succ h.le
  visits := by rw [hvisits, h.visits]; rfl
  again i t ht := by
    cases i with
    | zero =>
      -- some attempt follows the one in front unless none is left
      obtain rfl : _ = t := Option.some.inj ht
      have hle := h.le
      have hpos := h.pos
      simp only [hconflict, true_and]
      omega
    | succ i =>
      rw [Nat.add_lt_add_iff_right, Nat.add_lt_add_iff_right]
      exact h.again i t ht
  result := by
    rw [hrun]
    rcases h.result with ⟨rfl, hall, hr⟩ | ⟨t, ht, hr⟩
    · refine Or.inl ⟨rfl, fun t ht => ?_, hr⟩
      rcases List.mem_cons.1 ht with rfl | ht
      · exact hconflict
      · exact hall t ht
    · refine Or.inr ⟨t, ?_, hr⟩
      rw [tries, List.getLast?_cons, ht]
      rfl

/-- One attempt that is not made again. -/
theorem Retries.last (hconflict : Try.conflicted ⟨c.visits p, (c.run p).1⟩ = false)
    (hvisits : c.visits q = c.visits p) (hrun : (c.run q).1 = (c.run p).1) :
    c.Retries q p operation attempts (left + 1) 1 where
  le := Nat.succ_le_succ (Nat.zero_le left)
  visits := by rw [hvisits, tries, tries, List.flatMap_singleton]
  again i t ht := by
    obtain ⟨rfl, rfl⟩ : i = 0 ∧ _ = t := by simpa [tries, List.getElem?_singleton] using ht
    simp [hconflict]
  result := Or.inr ⟨_, rfl, hconflict, hrun⟩

/-- An attempt and what it decides of what comes after it. -/
theorem visits_outcome_bind (p : Program α) (f : Except EngineError α → Program β) (c : Contended) :
    c.visits (p.outcome >>= f) = c.visits p ++ (c.run p).2.visits (f (c.run p).1) ∧
      c.run (p.outcome >>= f) = (c.run p).2.run (f (c.run p).1) := by
  have hrun : Program.run serve p.outcome c = (.ok (c.run p).1, (c.run p).2) := run_outcome serve p c
  refine ⟨?_, ?_⟩
  · rw [visits_bind, visits_outcome, run, hrun]
  · rw [run, run_bind, hrun]
    rfl

/-- **A program that may be run up to `left` times** is made of attempts. -/
theorem retries_again (operation : Operation) (limit : Nat) (p : Program α) : ∀ (left : Nat) (c : Contended),
    ∃ n, c.Retries (retry.again operation limit p left) p operation (max limit 1) left n
  | 0, c => ⟨0, Nat.le_refl 0, rfl, fun _ _ h => by simp [tries] at h, Or.inl ⟨rfl, by simp [tries], rfl⟩⟩
  | left + 1, c => by
    obtain ⟨hvisits, hrun⟩ := visits_outcome_bind p (Session.settle operation limit left p) c
    rw [← Session.again_succ] at hvisits hrun
    cases hr : (c.run p).1 with
    | ok a =>
      rw [hr] at hvisits hrun
      refine ⟨1, .last (by rw [hr]; rfl) ?_ ?_⟩
      · rw [hvisits]; exact List.append_nil _
      · rw [hrun, hr]; rfl
    | error e =>
      cases hconflict : e.isConflict with
      | true =>
        rw [hr, Session.settle, if_pos hconflict] at hvisits hrun
        obtain ⟨n, h⟩ := retries_again operation limit p left (c.run p).2
        exact ⟨n + 1, h.cons (by rw [hr]; exact hconflict) hvisits (congrArg Prod.fst hrun)⟩
      | false =>
        rw [hr, Session.settle, if_neg (by rw [hconflict]; simp)] at hvisits hrun
        refine ⟨1, .last (by rw [hr]; exact hconflict) ?_ ?_⟩
        · rw [hvisits]; exact List.append_nil _
        · rw [hrun, hr]; rfl

/-- Only the last attempt may end in anything but a conflict. -/
theorem Retries.getLast?_of_not_conflicted (h : c.Retries q p operation attempts left n) {t : Try α}
    (ht : t ∈ c.tries p n) (hconflict : t.conflicted = false) : (c.tries p n).getLast? = some t := by
  obtain ⟨i, hi, hget⟩ := List.mem_iff_getElem.1 ht
  have hsome : (c.tries p n)[i]? = some t := List.getElem?_eq_some_iff.2 ⟨hi, hget⟩
  -- it would have been made again only after a conflict
  have hlast : ¬ i + 1 < n := fun hlt => by
    rw [((h.again i t hsome).1 hlt).1] at hconflict
    cases hconflict
  rw [length_tries] at hi
  rw [List.getLast?_eq_getElem?, length_tries, show n - 1 = i by omega, hsome]

theorem Retries.conflicted_of_mem_dropLast (h : c.Retries q p operation attempts left n) {t : Try α}
    (ht : t ∈ (c.tries p n).dropLast) : t.conflicted = true := by
  obtain ⟨i, hi, hget⟩ := List.mem_iff_getElem.1 ht
  rw [List.getElem_dropLast] at hget
  rw [List.length_dropLast, length_tries] at hi
  exact ((h.again i t (List.getElem?_eq_some_iff.2 ⟨_, hget⟩)).1 (by omega)).1

/-- A run that was not given up ends as its last attempt does. -/
theorem Retries.result_eq (h : c.Retries q p operation attempts left n) {t : Try α}
    (ht : t ∈ c.tries p n) (hconflict : t.conflicted = false) : (c.run q).1 = t.result := by
  rcases h.result with ⟨-, hall, -⟩ | ⟨u, hu, -, hr⟩
  · rw [hall t ht] at hconflict
    cases hconflict
  · rw [h.getLast?_of_not_conflicted ht hconflict] at hu
    rw [hr, Option.some.inj hu]

end Contended

namespace Edit

open Contended

/-- What an edit is named in errors. -/
def operation : Edit → Operation
  | .append _ => .append
  | .remove .. => .remove
  | .move .. => .move
  | .modify .. => .modify

/-- One attempt at an edit: the list is read, and a change of it is planned and committed. A row that is to be
moved next to itself fails the first attempt. -/
def attempt (limit : Nat) : (e : Edit) → Program (e.task limit).Answer
  | .append item => do
    let list ← chain _ item.owner
    let splice := list.appendAll [item]
    commitSplice list splice
    return (splice.puts.find? (·.id == item.id)).getD item
  | .remove k id => do
    let item ← get k id
    let list ← chain k item.owner
    match list.remove? id with
    | none => fail (.notFound k id)
    | some splice =>
      commitSplice list splice
      return item
  | .move k owner id target side =>
    if id = target then fail (.selfReferentialMove id)
    else do
      let list ← chain k owner
      if !list.contains id then
        let _ ← get k id
        fail (.exampleMismatch k id owner)
      else
        let splice ← ofExcept (list.move id target side)
        if splice.isEmpty then return false
        commitSplice list splice
        return true
  | .modify id edit => Session.change id edit

theorem program_eq_retry (limit : Nat) (e : Edit) :
    (e.task limit).program = retry e.operation limit (e.attempt limit) := by
  cases e with
  | move k owner id target side =>
    by_cases h : id = target
    · obtain ⟨n, hn⟩ : ∃ n, max limit 1 = n + 1 := ⟨max limit 1 - 1, by omega⟩
      rw [retry, hn, Session.again_succ, attempt, if_pos h]
      exact if_pos h
    · rw [attempt, if_neg h]
      exact if_neg h
  | _ => rfl

/-- The edit of a row fails of itself with this error. -/
def Raises : Edit → EngineError → Prop
  | .modify _ edit, err => ∃ x, edit x = .error err
  | _, _ => False

/-- An edit that ends with `a` after these accesses tells whether it has changed anything: one that appends or
removes always has, one that moves gives it as its result, and one that changes a row says so of the row that it
read. -/
def Tells (limit : Nat) : (e : Edit) → List Visit → (e.task limit).Answer → Bool → Prop
  | .append _, _, _, changed => changed = true
  | .remove .., _, _, changed => changed = true
  | .move .., _, moved, changed => changed = moved
  | .modify (k := k) id edit, visits, a, changed =>
    ∃ v ∈ visits, ∃ (owner : ExampleId) (list : Chain k) (x : Item k),
      v.Scans owner list ∧ list.get? id = some x ∧ edit x = .ok (a, changed)

/-- **How one attempt ends**: it only reads, and then it fails or tells that nothing is to be changed, or its
last access is the commit of one batch. -/
inductive Ends (limit : Nat) (e : Edit) : List Visit → Except EngineError (e.task limit).Answer → Prop
  | failed {visits err} : (∀ v ∈ visits, v.isCommit = false) → err.isFinal = true ∨ e.Raises err →
      Ends limit e visits (.error err)
  | unchanged {visits a} : (∀ v ∈ visits, v.isCommit = false) → e.Tells limit visits a false →
      Ends limit e visits (.ok a)
  | refused {visits b s err} : (∀ v ∈ visits, v.isCommit = false) → s.fault? b = some err →
      Ends limit e (visits ++ [⟨⟨.commit b, some err⟩, s, s⟩]) (.error (.store err))
  | applied {visits b s a} : (∀ v ∈ visits, v.isCommit = false) → s.fault? b = none →
      e.Tells limit visits a true → Ends limit e (visits ++ [⟨⟨.commit b, none⟩, s, s.accept b⟩]) (.ok a)

theorem isFinal_of_move {list : Chain k} {id target : ItemId} {side : Side} {err : EngineError}
    (h : list.move id target side = .error err) : err.isFinal = true := by
  unfold Chain.move at h
  split at h
  · cases h; rfl
  split at h
  · cases h; rfl
  split at h
  · cases h; rfl
  · cases h

/-- An attempt that has only read commits a draft. -/
theorem yields_commit_ends {limit : Nat} (e : Edit) {visits : List Visit} {a : (e.task limit).Answer}
    (hreads : ∀ v ∈ visits, v.isCommit = false) (htells : e.Tells limit visits a true) (d : Draft k) :
    Yields (fun ws => e.Ends limit (visits ++ ws)) (do commit d; return a) := by
  refine Yields.bind (yields_commit d (fun s hf => yields_done ?_) fun s err hf => ?_)
  · rw [List.append_nil]
    exact .applied hreads hf htells
  · exact .refused hreads hf

/-- **Every attempt ends like that**, whatever the others do. -/
theorem attempt_ends (limit : Nat) (e : Edit) : Yields (e.Ends limit) (e.attempt limit) := by
  cases e with
  | append item =>
    refine Yields.bind (yields_chain _ (fun v list hv hscan => ?_) fun v err hv herr => ?_)
    · exact yields_commit_ends (.append item) (by simpa using hv) rfl _
    · exact Ends.failed (by simpa using hv) (Or.inl herr)
  | remove k id =>
    refine Yields.bind (yields_get _ (fun u item hu => ?_) fun v err hv herr => ?_)
    · refine Yields.bind (yields_chain _ (fun v list hv hscan => ?_) fun v err hv herr => ?_)
      · have hreads : ∀ w ∈ [u, v], w.isCommit = false := by simp [hu, hv]
        dsimp only
        cases list.remove? id with
        | none => exact yields_done (Ends.failed hreads (Or.inl rfl))
        | some splice => exact yields_commit_ends (.remove k id) hreads rfl _
      · exact Ends.failed (by simp [hu, hv]) (Or.inl herr)
    · exact Ends.failed (by simpa using hv) (Or.inl herr)
  | move k owner id target side =>
    rw [attempt]
    split
    · exact yields_done (Ends.failed (by simp) (Or.inl rfl))
    refine Yields.bind (yields_chain _ (fun v list hv hscan => ?_) fun v err hv herr => ?_)
    · have hreads : ∀ w ∈ [v], w.isCommit = false := by simpa using hv
      dsimp only
      split
      · refine Yields.bind (yields_get _ (fun u item hu => ?_) fun u err hu herr => ?_)
        · exact yields_done (Ends.failed (by simp [hu, hv]) (Or.inl rfl))
        · exact Ends.failed (by simp [hu, hv]) (Or.inl herr)
      · cases hmove : list.move id target side with
        | error err => exact yields_done (Ends.failed hreads (Or.inl (isFinal_of_move hmove)))
        | ok splice =>
          rw [Program.ofExcept, bind_done_ok]
          cases splice.isEmpty with
          | true => exact yields_done (Ends.unchanged hreads rfl)
          | false => exact yields_commit_ends (.move k owner id target side) hreads rfl _
    · exact Ends.failed (by simpa using hv) (Or.inl herr)
  | modify id edit =>
    refine Yields.bind (yields_get _ (fun u item hu => ?_) fun v err hv herr => ?_)
    · refine Yields.bind (yields_chain _ (fun v list hv hscan => ?_) fun v err hv herr => ?_)
      · have hreads : ∀ w ∈ [u, v], w.isCommit = false := by simp [hu, hv]
        dsimp only
        cases hx : list.get? id with
        | none => exact yields_done (Ends.failed hreads (Or.inl rfl))
        | some x =>
          dsimp only
          cases hedit : edit x with
          | error err => exact yields_done (Ends.failed hreads (Or.inr ⟨x, hedit⟩))
          | ok edited =>
            obtain ⟨a, changed⟩ := edited
            have htells : (Edit.modify id edit).Tells limit [u, v] a changed :=
              ⟨v, by simp, item.owner, list, x, hscan, hx, hedit⟩
            rw [Program.ofExcept, bind_done_ok]
            cases changed with
            | false => exact yields_done (Ends.unchanged hreads htells)
            | true => exact yields_commit_ends (.modify id edit) hreads htells _
      · exact Ends.failed (by simp [hu, hv]) (Or.inl herr)
    · exact Ends.failed (by simpa using hv) (Or.inl herr)

section Ends

variable {limit : Nat} {e : Edit} {visits : List Visit}

theorem countP_reads (h : ∀ v ∈ visits, v.isCommit = false) :
    visits.countP (·.isCommit) = 0 ∧ visits.countP (·.isApplied) = 0 := by
  rw [List.countP_eq_zero, List.countP_eq_zero]
  exact ⟨fun v hv => by simp [h v hv], fun v hv => by simp [Visit.isApplied_of_read (h v hv)]⟩

theorem Ends.commits {r : Except EngineError (e.task limit).Answer} (h : e.Ends limit visits r) :
    visits.countP (·.isCommit) ≤ 1 := by
  cases h with
  | failed hreads _ => rw [(countP_reads hreads).1]; exact Nat.zero_le 1
  | unchanged hreads _ => rw [(countP_reads hreads).1]; exact Nat.zero_le 1
  | refused hreads _ => rw [List.countP_append, (countP_reads hreads).1]; exact Nat.le_refl 1
  | applied hreads _ _ => rw [List.countP_append, (countP_reads hreads).1]; exact Nat.le_refl 1

/-- An attempt that fails has changed nothing. -/
theorem Ends.applied_of_error {err : EngineError} (h : e.Ends limit visits (.error err)) :
    visits.countP (·.isApplied) = 0 := by
  cases h with
  | failed hreads _ => exact (countP_reads hreads).2
  | refused hreads _ => rw [List.countP_append, (countP_reads hreads).2]; rfl

theorem Tells.append {a : (e.task limit).Answer} {changed : Bool} (h : e.Tells limit visits a changed)
    (more : List Visit) : e.Tells limit (visits ++ more) a changed := by
  cases e with
  | modify id edit =>
    obtain ⟨v, hv, hread⟩ := h
    exact ⟨v, List.mem_append_left _ hv, hread⟩
  | _ => exact h

/-- An attempt that succeeds has changed something if it tells so. -/
theorem Ends.applied_of_ok {a : (e.task limit).Answer} (h : e.Ends limit visits (.ok a)) :
    ∃ changed, e.Tells limit visits a changed ∧ visits.countP (·.isApplied) = if changed then 1 else 0 := by
  cases h with
  | unchanged hreads htells => exact ⟨false, htells, (countP_reads hreads).2⟩
  | applied hreads _ htells =>
    refine ⟨true, htells.append _, ?_⟩
    rw [List.countP_append, (countP_reads hreads).2]
    rfl

/-- A conflict comes from a commit that was overtaken, if not from the edit itself. -/
theorem Ends.overtaken {err : EngineError} (h : e.Ends limit visits (.error err))
    (hconflict : err.isConflict = true) : (∃ v ∈ visits, v.Overtaken) ∨ e.Raises err := by
  cases h with
  | failed _ herr =>
    refine Or.inr (herr.resolve_left fun hfinal => ?_)
    rw [EngineError.isConflict_of_isFinal hfinal] at hconflict
    cases hconflict
  | @refused _ b s err _ hf =>
    refine Or.inl ⟨_, List.mem_append_right _ (List.mem_singleton_self _), ?_⟩
    cases err with
    | conflict kind owner expected actual =>
      obtain ⟨hguard, hne⟩ := Store.overtaken_of_conflict hf
      exact ⟨b, owner, expected, rfl, hguard, hne⟩
    | _ => cases hconflict

theorem Ends.raised {operation : Operation} {attempts : Nat}
    (h : e.Ends limit visits (.error (.retriesExhausted operation attempts))) :
    e.Raises (.retriesExhausted operation attempts) := by
  cases h with
  | failed _ herr => exact herr.resolve_left (by simp [EngineError.isFinal])

end Ends

/-! ## Edits among other clients -/

/-- What becomes of an edit among other clients, over the attempts that it makes. -/
structure Attempted (limit : Nat) (e : Edit) (c : Contended) (tries : List (Try (e.task limit).Answer)) :
    Prop where
  /-- The attempts are made one after another, and nothing else is done. -/
  made : tries = c.tries (e.attempt limit) tries.length
  visits : c.visits (e.task limit).program = tries.flatMap (·.visits)
  /-- There is a first attempt. -/
  pos : 0 < tries.length
  /-- An attempt is made again exactly after a conflict, as long as the limit allows it. -/
  again : ∀ i t, tries[i]? = some t → (i + 1 < tries.length ↔ t.conflicted = true ∧ i + 1 < max limit 1)
  /-- An attempt ends in a conflict when its batch came too late, or because the edit says so. -/
  overtaken : ∀ t ∈ tries, t.conflicted = true →
    (∃ v ∈ t.visits, v.Overtaken) ∨ ∃ err, t.result = .error err ∧ e.Raises err
  commits : (c.visits (e.task limit).program).countP (·.isCommit) ≤ max limit 1
  /-- Any other outcome of an attempt is that of the edit. -/
  returned : ∀ t ∈ tries, t.conflicted = false → (c.run (e.task limit).program).1 = t.result
  /-- The edit gives up when it has made all attempts and all were conflicts; the same error may also be raised
  by what is to be done to a row. -/
  exhausted : (c.run (e.task limit).program).1 = .error (.retriesExhausted e.operation (max limit 1)) ↔
    (tries.length = max limit 1 ∧ ∀ t ∈ tries, t.conflicted = true) ∨
      e.Raises (.retriesExhausted e.operation (max limit 1)) ∧
        ∃ t ∈ tries, t.result = .error (.retriesExhausted e.operation (max limit 1))
  /-- An access changes what is stored just by having its batch applied. -/
  served : ∀ v ∈ c.visits (e.task limit).program,
    if v.isApplied then v.left.commits = v.found.commits + 1 else v.left = v.found
  /-- An edit that fails has changed nothing. -/
  failed : ∀ err, (c.run (e.task limit).program).1 = .error err →
    ∀ v ∈ c.visits (e.task limit).program, v.isApplied = false
  /-- An edit that succeeds had one batch applied, or none if the last attempt told that nothing was changed. -/
  succeeded : ∀ a, (c.run (e.task limit).program).1 = .ok a → ∃ t changed, tries.getLast? = some t ∧
    e.Tells limit t.visits a changed ∧
      (c.visits (e.task limit).program).countP (·.isApplied) = if changed then 1 else 0

section

variable {limit n : Nat} {e : Edit} {c : Contended}

/-- An edit is made of attempts. -/
theorem exists_retries (limit : Nat) (e : Edit) (c : Contended) : ∃ n, c.Retries (e.task limit).program
    (e.attempt limit) e.operation (max limit 1) (max limit 1) n := by
  rw [program_eq_retry]
  exact retries_again e.operation limit (e.attempt limit) (max limit 1) c

theorem ends_of_mem {t : Try (e.task limit).Answer} (ht : t ∈ c.tries (e.attempt limit) n) :
    e.Ends limit t.visits t.result := (attempt_ends limit e).tries n c t ht

theorem applied_of_mem {t : Try (e.task limit).Answer} (ht : t ∈ c.tries (e.attempt limit) n)
    {err : EngineError} (hr : t.result = .error err) : t.visits.countP (·.isApplied) = 0 := by
  have hend := ends_of_mem ht
  rw [hr] at hend
  exact hend.applied_of_error

/-- Attempts that failed. -/
theorem applied_eq_zero {ts : List (Try (e.task limit).Answer)} (hts : ts ⊆ c.tries (e.attempt limit) n)
    (herr : ∀ t ∈ ts, ∃ err, t.result = .error err) :
    (ts.flatMap (·.visits)).countP (·.isApplied) = 0 := by
  have hle : (ts.flatMap (·.visits)).countP (·.isApplied) ≤ ts.length * 0 := countP_flatMap_le fun t ht => by
    obtain ⟨err, hr⟩ := herr t ht
    exact Nat.le_of_eq (applied_of_mem (hts ht) hr)
  exact Nat.le_zero.1 hle

/-- Only the last attempt may have its batch applied. -/
theorem applied_eq_last (h : c.Retries (e.task limit).program (e.attempt limit) e.operation (max limit 1)
    (max limit 1) n) {t : Try (e.task limit).Answer} (ht : (c.tries (e.attempt limit) n).getLast? = some t) :
    (c.visits (e.task limit).program).countP (·.isApplied) = t.visits.countP (·.isApplied) := by
  have hinit : ((c.tries (e.attempt limit) n).dropLast.flatMap (·.visits)).countP (·.isApplied) = 0 := by
    refine applied_eq_zero (List.dropLast_subset _) fun u hu => ?_
    obtain ⟨err, hr, -⟩ := Try.conflicted_iff.1 (h.conflicted_of_mem_dropLast hu)
    exact ⟨err, hr⟩
  rw [h.visits, ← List.dropLast_append_getLast? t ht, List.flatMap_append, List.countP_append, hinit,
    List.flatMap_singleton, Nat.zero_add]

/-- When the edit fails, so did all its attempts. -/
theorem applied_of_failed (h : c.Retries (e.task limit).program (e.attempt limit) e.operation (max limit 1)
    (max limit 1) n) {err : EngineError} (hr : (c.run (e.task limit).program).1 = .error err) :
    ∀ v ∈ c.visits (e.task limit).program, v.isApplied = false := by
  have hzero : (c.visits (e.task limit).program).countP (·.isApplied) = 0 := by
    rw [h.visits]
    refine applied_eq_zero (List.Subset.refl _) fun t ht => ?_
    cases hconflict : t.conflicted with
    | true =>
      obtain ⟨err, hr, -⟩ := Try.conflicted_iff.1 hconflict
      exact ⟨err, hr⟩
    | false => exact ⟨err, (h.result_eq ht hconflict).symm.trans hr⟩
  exact fun v hv => by simpa using List.countP_eq_zero.1 hzero v hv

theorem exhausted_iff (h : c.Retries (e.task limit).program (e.attempt limit) e.operation (max limit 1)
    (max limit 1) n) : (c.run (e.task limit).program).1 = .error (.retriesExhausted e.operation (max limit 1)) ↔
      (n = max limit 1 ∧ ∀ t ∈ c.tries (e.attempt limit) n, t.conflicted = true) ∨
        e.Raises (.retriesExhausted e.operation (max limit 1)) ∧ ∃ t ∈ c.tries (e.attempt limit) n,
          t.result = .error (.retriesExhausted e.operation (max limit 1)) := by
  constructor
  · intro hr
    rcases h.result with ⟨hn, hall, -⟩ | ⟨t, ht, -, hrt⟩
    · exact Or.inl ⟨hn, hall⟩
    · have hmem := List.mem_of_getLast? ht
      have hend := ends_of_mem hmem
      rw [← hrt, hr] at hend
      exact Or.inr ⟨hend.raised, t, hmem, hrt.symm.trans hr⟩
  · rintro (⟨-, hall⟩ | ⟨-, t, ht, hr⟩)
    · rcases h.result with ⟨-, -, hr⟩ | ⟨t, ht, hconflict, -⟩
      · exact hr
      · rw [hall t (List.mem_of_getLast? ht)] at hconflict
        cases hconflict
    · rw [h.result_eq ht (by rw [Try.conflicted, hr]; rfl), hr]

end

/-- **Edits take effect once.** Whatever other clients commit before each of its accesses, an edit makes one
attempt after another, as many as the limit allows, and goes on after a conflict and nothing else. An edit
that fails, or gives up, has changed nothing; one that succeeds had exactly one batch applied, or none if its
last attempt tells that nothing was changed. -/
theorem attempted (limit : Nat) (e : Edit) (c : Contended) : ∃ tries, e.Attempted limit c tries := by
  obtain ⟨n, h⟩ := exists_retries limit e c
  refine ⟨c.tries (e.attempt limit) n, ?_⟩
  constructor
  case made => rw [length_tries]
  case visits => exact h.visits
  case pos => rw [length_tries]; exact h.pos (Nat.le_max_right limit 1)
  case again => rw [length_tries]; exact h.again
  case overtaken =>
    intro t ht hconflict
    obtain ⟨err, hr, herr⟩ := Try.conflicted_iff.1 hconflict
    have hend := ends_of_mem ht
    rw [hr] at hend
    exact (hend.overtaken herr).imp_right fun hraises => ⟨err, hr, hraises⟩
  case commits =>
    have hle := countP_flatMap_le fun t (ht : t ∈ c.tries (e.attempt limit) n) => (ends_of_mem ht).commits
    rw [length_tries, Nat.mul_one, ← h.visits] at hle
    exact Nat.le_trans hle h.le
  case returned => exact fun t ht => h.result_eq ht
  case exhausted => rw [length_tries]; exact exhausted_iff h
  case served => exact fun v hv => (served_visits _ c v hv).left_eq
  case failed => exact fun err => applied_of_failed h
  case succeeded =>
    intro a hr
    rcases h.result with ⟨-, -, hr'⟩ | ⟨t, ht, -, hrt⟩
    · rw [hr] at hr'
      cases hr'
    · have hend := ends_of_mem (List.mem_of_getLast? ht)
      rw [← hrt, hr] at hend
      obtain ⟨changed, htells, happlied⟩ := hend.applied_of_ok
      exact ⟨t, changed, ht, htells, (applied_eq_last h ht).trans happlied⟩

/-- A world in which another client appends a row after the list was read and before it is committed. -/
def overtaking : Contended where
  world := { supply := fun n => BitVec.ofNat 128 n }
  beforeCommits := [[{ kind := .header
                       writes := [.put (Record.ofItem (k := .header)
                         (Item.fresh ⟨1⟩ ⟨100⟩ (KeyValue.ofPair "a" "b")))] }]]

/-- A row to append in that world. -/
def overtaken : Edit := .append (k := .header) (Item.fresh ⟨2⟩ ⟨100⟩ (KeyValue.ofPair "c" "d"))

/-- The first commit is refused and the second one goes through. -/
theorem attempted_overtaken : (∃ tries, overtaken.Attempted 2 overtaking tries) ∧
    (overtaking.visits (overtaken.task 2).program).countP (·.isCommit) = 2 ∧
      (overtaking.visits (overtaken.task 2).program).countP (·.isApplied) = 1 := by
  obtain ⟨tries, h⟩ := attempted 2 overtaken overtaking
  refine ⟨⟨tries, h⟩, by decide, ?_⟩
  cases hr : (overtaking.run (overtaken.task 2).program).1 with
  | ok a =>
    obtain ⟨t, changed, -, htells, happlied⟩ := h.succeeded a hr
    rw [happlied, show changed = true from htells]
    rfl
  | error err =>
    have hok : (overtaking.run (overtaken.task 2).program).1.isOk = true := by decide
    rw [hr] at hok
    cases hok

/-- With one attempt the edit gives up. -/
example : (overtaking.run (overtaken.task 1).program).1 = .error (.retriesExhausted .append 1) := by rfl

end Edit

end ExampleOverlay
