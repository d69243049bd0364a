import ExampleOverlay.Proofs.Runs.Editing

/-!
# What calls ask

A program asks one request after another, each depending on the answers so far. Whatever it is answered, a
call of the service for rows of one kind asks only about rows of this kind, and only those calls that make new
rows have ids minted (`Call.asks`).
-/

namespace ExampleOverlay

/-- The request is about rows of a kind, or about examples. -/
def Request.About (k : Kind) : Request → Prop
  | .get kind _ | .scan kind _ | .children kind _ => kind = k
  | .commit b => b.kind = k
  | .versionOf _ => True
  | .mint => False

namespace Program

variable {α β : Type} {P P' : Request → Prop} {p : Program α} {k : Kind}

/-- Whatever a program is answered, its requests have the property `P`. -/
def Asks (P : Request → Prop) : Program α → Prop
  | .done _ => True
  | .ask q next => P q ∧ ∀ answer, (next answer).Asks P

/-! ## Putting programs together -/

theorem Asks.mono (h : p.Asks P) (hP : ∀ q, P q → P' q) : p.Asks P' := by
  induction p with
  | done r => exact True.intro
  | ask q next ih => exact ⟨hP q h.1, fun answer => ih answer (h.2 answer)⟩

theorem Asks.bind {f : α → Program β} (hp : p.Asks P) (hf : ∀ a, (f a).Asks P) : (p >>= f).Asks P := by
  induction p with
  | done r =>
    cases r with
    | ok a => exact hf a
    | error e => exact True.intro
  | ask q next ih => exact ⟨hp.1, fun answer => ih answer (hp.2 answer)⟩

theorem Asks.outcome (hp : p.Asks P) : p.outcome.Asks P := by
  induction p with
  | done r => exact True.intro
  | ask q next ih => exact ⟨hp.1, fun answer => ih answer (hp.2 answer)⟩

theorem Asks.retry (operation : Operation) (limit : Nat) (hp : p.Asks P) :
    (Program.retry operation limit p).Asks P := by
  suffices h : ∀ n, (Program.retry.again operation limit p n).Asks P from h _
  intro n
  induction n with
  | zero => exact True.intro
  | succ n ih =>
    refine hp.outcome.bind fun r => ?_
    cases r with
    | ok a => exact True.intro
    | error e =>
      dsimp only
      split
      · exact ih
      · exact True.intro

theorem asks_pure (a : α) : (pure a : Program α).Asks P := True.intro

theorem asks_ofExcept (r : Except EngineError α) : (ofExcept r).Asks P := True.intro

theorem asks_collect {f : α → Program β} (hf : ∀ a, (f a).Asks P) : ∀ as, (collect f as).Asks P
  | [] => True.intro
  | a :: as => (hf a).bind fun _ => (asks_collect hf as).bind fun _ => asks_pure _

/-! ## Accesses -/

theorem asks_ofRecords (read : Except RecordError α) : (ofRecords read).Asks P := by
  cases read <;> exact True.intro

theorem asks_get (id : ItemId) : (Program.get k id).Asks (·.About k) := by
  refine Asks.bind ⟨rfl, fun answer => ?_⟩ fun item => ?_
  · cases answer with
    | none => exact True.intro
    | some record => exact (asks_ofRecords _).bind fun _ => asks_pure _
  · cases item <;> exact True.intro

theorem asks_chain (owner : ExampleId) : (chain k owner).Asks (·.About k) := by
  rw [Session.chain_eq_ask]
  exact ⟨rfl, fun _ => True.intro⟩

theorem asks_children (parent : ItemId) : (children k parent).Asks (·.About k) :=
  ⟨rfl, fun _ => asks_ofRecords _⟩

theorem asks_commit (d : Draft k) : (commit d).Asks (·.About k) :=
  ⟨rfl, fun answer => by cases answer <;> exact True.intro⟩

theorem asks_isVersion (owner : ExampleId) : (isVersion owner).Asks (·.About k) :=
  ⟨True.intro, fun _ => True.intro⟩

theorem asks_mint : mint.Asks (· = .mint) := ⟨rfl, fun _ => True.intro⟩

end Program

open Program

variable {k : Kind}

/-! ## Edits -/

namespace Editing

theorem asks_append (limit : Nat) (item : Item k) : (append limit item).Asks (·.About k) :=
  Asks.retry _ _ <| (asks_chain _).bind fun _ => (asks_commit _).bind fun _ => asks_pure _

theorem asks_remove (limit : Nat) (id : ItemId) : (remove limit k id).Asks (·.About k) := by
  refine Asks.retry _ _ <| (asks_get _).bind fun _ => (asks_chain _).bind fun list => ?_
  cases list.remove? id with
  | none => exact True.intro
  | some splice => exact (asks_commit _).bind fun _ => asks_pure _

theorem asks_move (limit : Nat) (owner : ExampleId) (id target : ItemId) (side : Side) :
    (move limit k owner id target side).Asks (·.About k) := by
  unfold move
  split
  · exact True.intro
  refine Asks.retry _ _ <| (asks_chain _).bind fun list => ?_
  split
  · exact (asks_get _).bind fun _ => True.intro
  · refine (asks_ofExcept _).bind fun splice => ?_
    split
    · exact True.intro
    · exact (asks_commit _).bind fun _ => asks_pure _

theorem asks_modify (limit : Nat) (id : ItemId) (edit : Item k → Except EngineError (Item k × Bool)) :
    (modify limit id edit).Asks (·.About k) := by
  refine Asks.retry _ _ <| (asks_get _).bind fun _ => (asks_chain _).bind fun list => ?_
  cases list.get? id with
  | none => exact True.intro
  | some item =>
    refine (asks_ofExcept _).bind fun edited => ?_
    dsimp only
    split
    · exact (asks_commit _).bind fun _ => asks_pure _
    · exact True.intro

end Editing

/-! ## Cascades -/

namespace Cascade

theorem asks_versions (rows : List (Item k)) : (versions rows).Asks (·.About k) :=
  asks_collect (fun _ => (asks_isVersion _).bind fun _ => asks_pure _) _

theorem asks_carry {P : Request → Prop} {each : Item k → Program Outcome} (heach : ∀ row, (each row).Asks P) :
    ∀ (report : Report) (rows : List (Item k)), (carry each report rows).Asks P
  | _, [] => True.intro
  | report, row :: rest => by
    refine (heach row).outcome.bind fun r => ?_
    cases r with
    | ok outcome => exact asks_carry heach _ rest
    | error e =>
      dsimp only
      split
      · exact asks_carry heach _ rest
      · exact asks_carry heach _ rest

theorem asks_updateOne (limit : Nat) (before after : Item k) (version : Bool) (row : Item k) :
    (updateOne limit before after version row).Asks (·.About k) := by
  unfold updateOne
  split
  · exact True.intro
  refine (asks_get _).outcome.bind fun r => ?_
  have hmodify : ∀ fields : Fields k, (do
      let row ← Editing.modify limit row.id (takeFields before.id fields)
      return if row.parent = some before.id ∧ row.overridden = false then Outcome.updated
        else .skipped : Program Outcome).Asks (·.About k) :=
    fun fields => (Editing.asks_modify _ _ _).bind fun _ => asks_pure _
  cases r with
  | ok parent => exact hmodify parent.fields
  | error e =>
    dsimp only
    split
    · exact hmodify after.fields
    · exact True.intro

theorem asks_update (limit : Nat) (before after : Item k) : (update limit before after).Asks (·.About k) :=
  (asks_children _).bind fun rows => (asks_versions rows).bind fun _ =>
    asks_carry (fun _ => asks_updateOne _ _ _ _ _) _ rows

theorem asks_deleteOne (limit : Nat) (origin : Item k) (version : Bool) (row : Item k) :
    (deleteOne limit origin version row).Asks (·.About k) := by
  unfold deleteOne
  cases Source.resolve row (some origin) version with
  | delta => exact (Editing.asks_modify _ _ _).bind fun _ => asks_pure _
  | origin | mixed => exact (Editing.asks_remove _ _).bind fun _ => asks_pure _

theorem asks_delete (limit : Nat) (origin : Item k) : (delete limit origin).Asks (·.About k) :=
  (asks_children _).bind fun rows => (asks_versions rows).bind fun _ =>
    asks_carry (fun _ => asks_deleteOne _ _ _ _) _ rows

theorem asks_reset (limit : Nat) (id : ItemId) : (reset limit k id).Asks (·.About k) := by
  refine (asks_get _).bind fun row => ?_
  cases row.parent with
  | none => exact Editing.asks_modify _ _ _
  | some parent => exact ((asks_get _).bind fun _ => asks_pure _).bind fun _ => Editing.asks_modify _ _ _

end Cascade

/-! ## Calls -/

/-- The call makes new rows. -/
def Call.Mints : Call k → Prop
  | .create .. | .deltaList .. | .deltaCreate .. => True
  | _ => False

namespace Service

theorem asks_require {P : Request → Prop} (fault : Option FieldError) : (require fault).Asks P := by
  cases fault <;> exact True.intro

theorem asks_patchRow (limit : Nat) (id : ItemId) (patch : Patch k) (customize : Bool) :
    (patchRow limit id patch customize).Asks (·.About k) :=
  (asks_require _).bind fun _ => Editing.asks_modify _ _ _

theorem asks_requireOther {P : Request → Prop} (delta origin : ExampleId) :
    (requireOther delta origin).Asks P := by
  unfold requireOther
  split <;> exact True.intro

theorem asks_requireParent (delta : ExampleId) (origin : Option ExampleId) (parent : ItemId) :
    (requireParent k delta origin parent).Asks (·.About k) := by
  cases origin with
  | none => exact True.intro
  | some origin =>
    refine (asks_requireOther delta origin).bind fun _ => (asks_get parent).bind fun row => ?_
    split <;> exact True.intro

theorem asks_appendNew (limit : Nat) (row : ItemId → Item k) :
    (appendNew limit row).Asks fun q => q.About k ∨ q = .mint :=
  (asks_mint.mono fun _ => Or.inr).bind fun _ =>
    ((Editing.asks_append limit _).mono fun _ => Or.inl).bind fun _ => asks_pure _

theorem asks_materialize (limit : Nat) (origin : Chain k) (delta : ExampleId) :
    (materialize limit origin delta).Asks fun q => q.About k ∨ q = .mint := by
  have hchain : (chain k delta).Asks fun q => q.About k ∨ q = .mint := (asks_chain delta).mono fun _ => Or.inl
  refine Asks.retry _ _ <| hchain.bind fun current => ?_
  dsimp only
  split
  · exact True.intro
  refine (asks_collect (fun row => ?_) _).bind fun rows => ?_
  · exact (asks_mint.mono fun _ => Or.inr).bind fun _ => asks_pure _
  · exact ((asks_commit _).mono fun _ => Or.inl).bind fun _ => hchain

end Service

open Service in
/-- **A call asks only about rows of its kind**, and has ids minted only if it makes new rows. -/
theorem Call.asks (limit : Nat) (c : Call k) :
    (c.program limit).Asks fun q => q.About k ∨ c.Mints ∧ q = .mint := by
  cases c with
  | create owner fields =>
    rw [Call.program, create_eq]
    exact (asks_require _).bind fun _ =>
      (asks_appendNew limit _).mono fun _ => Or.imp_right fun h => ⟨True.intro, h⟩
  | update id patch =>
    refine Asks.mono (P := (·.About k)) ?_ fun _ => Or.inl
    refine (asks_get id).bind fun before => (asks_patchRow limit id patch false).bind fun after => ?_
    split
    · exact True.intro
    · exact (Cascade.asks_update limit before after).bind fun _ => asks_ofExcept _
  | delete id =>
    refine Asks.mono (P := (·.About k)) ?_ fun _ => Or.inl
    exact (Editing.asks_remove limit id).bind fun removed => (Cascade.asks_delete limit removed).bind fun _ =>
      asks_ofExcept _
  | move owner id target side => exact (Editing.asks_move limit owner id target side).mono fun _ => Or.inl
  | deltaList delta origin =>
    refine Asks.mono (P := fun q => q.About k ∨ q = .mint) ?_ fun _ => Or.imp_right fun h => ⟨True.intro, h⟩
    refine (asks_requireOther _ _).bind fun _ => ((asks_chain origin).mono fun _ => Or.inl).bind fun list => ?_
    refine (asks_materialize limit list delta).bind fun _ => ?_
    exact ((asks_isVersion delta).mono fun _ => Or.inl).bind fun _ => asks_pure _
  | deltaCreate delta origin parent fields =>
    refine Asks.mono (P := fun q => q.About k ∨ q = .mint) ?_ fun _ => Or.imp_right fun h => ⟨True.intro, h⟩
    cases parent with
    | none => exact (asks_require _).bind fun _ => asks_appendNew limit fun id => Item.fresh id delta fields
    | some parent =>
      refine (asks_require _).bind fun _ => ((asks_requireParent delta origin parent).mono fun _ => Or.inl).bind
        fun _ => ?_
      exact asks_appendNew limit
        fun id => { Item.fresh id delta fields with parent := some parent, overridden := true }
  | deltaUpdate id patch => exact (asks_patchRow limit id patch true).mono fun _ => Or.inl
  | deltaDelete id => exact ((Editing.asks_remove limit id).bind fun _ => asks_pure _).mono fun _ => Or.inl
  | deltaReset id => exact (Cascade.asks_reset limit id).mono fun _ => Or.inl
  | deltaMove delta id target side => exact (Editing.asks_move limit delta id target side).mono fun _ => Or.inl

end ExampleOverlay
