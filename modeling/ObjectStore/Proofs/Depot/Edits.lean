import ObjectStore.Proofs.Depot.Access

/-!
# Changes to objects

The operations that change objects, as data, so that a history is a list of changes. A put, a delete and
a clear ask the store for one write at most; an update asks for two, and a delete of several keys for as
many as there are keys.

Main statements: `good_of_act` and `after_of_act`.
-/

namespace ObjectStore.Access

/-- One change to the objects of a store. -/
inductive Edit where
  | put (o : DataObject)
  | update (o : DataObject)
  | delete (key : String)
  | deleteAll (keys : List String)
  | clear
  deriving DecidableEq, Repr

namespace Edit

/-- Carries out a change. -/
def act {σ : Type} (kv : KeyValue σ) (codec : DataCodec) : Edit → Action σ DepotError Unit
  | .put o => Access.put kv codec o
  | .update o => Access.update kv codec o
  | .delete key => Access.delete kv key
  | .deleteAll keys => Access.deleteAll kv keys
  | .clear => Access.clear kv

/-- Whether a change asks for one write at most. -/
def isSingle : Edit → Bool
  | .put _ => true
  | .update _ => false
  | .delete _ => true
  | .deleteAll _ => false
  | .clear => true

end Edit

variable {σ : Type} {kv : KeyValue σ} {codec : DataCodec} {good before after : σ → Prop}
  {content : σ → Table} {safe : Table → Prop} {s : σ}

/-- Every change leaves a good state behind, also where it fails. -/
theorem good_of_act (hkv : kv.Lawful good good content safe) (hsafe : ClosedUnderAccess codec safe)
    (hgood : ∀ {s}, good s → safe (content s)) (hs : good s) (edit : Edit) :
    (edit.act kv codec).Ensures s (fun _ s' => good s') fun _ s' => good s' := by
  cases edit with
  | put o => exact (ensures_put hkv hsafe hgood hs o).weaken (fun _ _ h => h.1) fun _ _ h => h.1
  | update o => exact (ensures_update hkv hsafe hgood hs o).weaken (fun _ _ h => h.1) fun _ _ h => h.1
  | delete key =>
      exact (ensures_delete hkv hsafe hgood hs key).weaken (fun _ _ h => h.1) fun _ _ h => h.1
  | deleteAll keys =>
      exact (ensures_deleteAll hkv hsafe hgood hs keys).weaken (fun _ _ h => h.1) fun _ _ h => h
  | clear => exact (ensures_clear hkv hsafe hgood hs).weaken (fun _ _ h => h.1) fun _ _ h => h.1

/-- After a change that asks for one write at most there was one write at most. -/
theorem after_of_act (hkv : kv.Lawful before after content safe)
    (hsafe : ClosedUnderAccess codec safe) (hbefore : ∀ {s}, before s → safe (content s))
    (hs : before s) {edit : Edit} (hsingle : edit.isSingle = true) :
    (edit.act kv codec).Ensures s (fun _ s' => after s') fun _ s' => after s' := by
  cases edit with
  | put o => exact (ensures_put hkv hsafe hbefore hs o).weaken (fun _ _ h => h.1) fun _ _ h => h.1
  | update o => cases hsingle
  | delete key =>
      exact (ensures_delete hkv hsafe hbefore hs key).weaken (fun _ _ h => h.1) fun _ _ h => h.1
  | deleteAll keys => cases hsingle
  | clear => exact (ensures_clear hkv hsafe hbefore hs).weaken (fun _ _ h => h.1) fun _ _ h => h.1

end ObjectStore.Access
