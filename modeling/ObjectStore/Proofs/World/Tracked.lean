import ObjectStore.Proofs.Depot.Refinement
import ObjectStore.Proofs.World.Runs

/-!
# What calls through handles keep

Calls through a handle move counters and make an engine apply batches, and that is all they do. What is
kept track of over these two steps for the handle of a depot is so kept by everything that is done with the
objects of the depot, and what they keep for every engine is kept by every call, whoever has lent the
handle.

Main statements: `of_edit`, `of_get`, `of_getSummary` and `of_getAll`.
-/

namespace ObjectStore.World

open ObjectStore.Action

/-- What calls through handles keep. -/
structure KeptByCalls (P : World → Prop) : Prop where
  setsFaults {w w' : World} : P w → SetsFaults w w' → P w'
  written {w : World} {r : EngineRef} {batch : Batch} {e e' : Engine} {disk : Disk} :
    P w → w.engines.get? r = some e → e.write batch w.disk = .ok (e', disk) →
      P { w with engines := w.engines.insert r e', disk }

namespace KeptByCalls

variable {P : World → Prop} {w : World}

theorem tracks (h : KeptByCalls P) (handle : Handle) : Tracks handle P P fun _ => True where
  setsFaults hw hfaults := h.setsFaults hw hfaults
  accepted hw he hwrite _ := h.written hw he hwrite
  after_of_before hw := hw

end KeptByCalls

/-! ## Single calls -/

section Calls

variable {P : World → Prop} {w : World} {handle : Handle}

theorem Tracks.put (h : Tracks handle P P fun _ => True) (hw : P w) (es : List Entry) :
    P ((World.put handle es).exec w).2 :=
  Ensures.exec_snd ((h.lawful.put es hw trivial).weaken (fun _ _ h => h.1) fun _ _ h => h.1)

theorem Tracks.delete (h : Tracks handle P P fun _ => True) (hw : P w) (keys : List Bytes) :
    P ((World.delete handle keys).exec w).2 :=
  Ensures.exec_snd ((h.lawful.delete keys hw trivial).weaken (fun _ _ h => h.1) fun _ _ h => h.1)

theorem Tracks.scan (h : Tracks handle P P fun _ => True) (hw : P w) (front : Bytes) :
    P ((World.scan handle front).exec w).2 :=
  Ensures.exec_snd ((h.lawful.scan front hw).weaken (fun _ _ h => h.2.1) fun _ _ h => h.1)

end Calls

/-! ## Objects -/

section Objects

variable {P : Handle → World → Prop} {Q : World → Prop} {w : World}

/-- What is done with the objects of a depot is done through its handle, or not at all. -/
theorem of_withObjects (hw : Q w) {name : String} {α : Type}
    {act : KeyValue World → DataCodec → Action World DepotError α}
    (hact : ∀ {d handle}, w.depots.get? name = some d → d.phase = .ready handle →
      (act (keyValue handle) d.codec).Ensures w (fun _ w' => Q w') fun _ w' => Q w') :
    Q (w.onDepot name fun d => withObjects d act) := by
  unfold onDepot
  split
  · rename_i d hd
    show Q ((withObjects d act).exec w).2
    unfold withObjects
    split
    · rename_i handle hphase
      exact Ensures.exec_snd (hact hd hphase)
    · exact hw
  · exact hw

variable (htracks : ∀ handle, Tracks handle (P handle) (P handle) fun _ => True)
  (hstart : ∀ {name d handle}, w.depots.get? name = some d → d.phase = .ready handle → P handle w)
  (hend : ∀ {handle w'}, P handle w' → Q w')

include htracks hstart hend

theorem of_edit (hw : Q w) (name : String) (edit : Access.Edit) : Q (step w (.edit name edit)) :=
  of_withObjects hw fun hd hphase =>
    (Access.good_of_act (htracks _).lawful (Access.closedUnderAccess_true _) (fun _ => trivial)
      (hstart hd hphase) edit).weaken (fun _ _ h => hend h) fun _ _ h => hend h

theorem of_get (hw : Q w) (name key : String) : Q (step w (.get name key)) :=
  of_withObjects hw fun hd hphase =>
    (Access.ensures_get (htracks _).lawful (hstart hd hphase) key).weaken (fun _ _ h => hend h.1)
      fun _ _ h => hend h.1

theorem of_getSummary (hw : Q w) (name key : String) : Q (step w (.getSummary name key)) :=
  of_withObjects hw fun hd hphase =>
    (Access.ensures_getSummary (htracks _).lawful (hstart hd hphase) key).weaken
      (fun _ _ h => hend h.1) fun _ _ h => hend h.1

theorem of_getAll (hw : Q w) (name front : String) : Q (step w (.getAll name front)) :=
  of_withObjects hw fun hd hphase =>
    (Access.ensures_getAll (htracks _).lawful (hstart hd hphase) front).weaken
      (fun _ _ h => hend h.1) fun _ _ h => hend h.1

end Objects

namespace KeptByCalls

variable {P : World → Prop} {w : World}

theorem put (h : KeptByCalls P) (hw : P w) (handle : Handle) (es : List Entry) :
    P ((World.put handle es).exec w).2 :=
  (h.tracks handle).put hw es

theorem delete (h : KeptByCalls P) (hw : P w) (handle : Handle) (keys : List Bytes) :
    P ((World.delete handle keys).exec w).2 :=
  (h.tracks handle).delete hw keys

theorem scan (h : KeptByCalls P) (hw : P w) (handle : Handle) (front : Bytes) :
    P ((World.scan handle front).exec w).2 :=
  (h.tracks handle).scan hw front

theorem edit (h : KeptByCalls P) (hw : P w) (name : String) (edit : Access.Edit) :
    P (step w (.edit name edit)) :=
  of_edit h.tracks (fun _ _ => hw) id hw name edit

theorem get (h : KeptByCalls P) (hw : P w) (name key : String) : P (step w (.get name key)) :=
  of_get h.tracks (fun _ _ => hw) id hw name key

theorem getSummary (h : KeptByCalls P) (hw : P w) (name key : String) :
    P (step w (.getSummary name key)) :=
  of_getSummary h.tracks (fun _ _ => hw) id hw name key

theorem getAll (h : KeptByCalls P) (hw : P w) (name front : String) :
    P (step w (.getAll name front)) :=
  of_getAll h.tracks (fun _ _ => hw) id hw name front

end KeptByCalls

end ObjectStore.World
