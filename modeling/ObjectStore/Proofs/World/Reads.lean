import ObjectStore.Proofs.Depot.Listing
import ObjectStore.Proofs.Depot.Lookup
import ObjectStore.Proofs.World.Healthy
import ObjectStore.Proofs.World.Runs

/-!
# What depots answer

A depot that is ready and whose scans are granted answers from the table of the engine behind its handle. After
any run, a get of any text answers the object of a stored group or nothing of any object; over any values, a
listing gives each stored group once.

Main statements: `unmixed_of_run` and `listed_of_keyed`.
-/

namespace ObjectStore.World

/-- An empty disk has no logs. -/
theorem content?_empty (place : List String) : ({} : Disk).content? (Engine.logPlace place) = none := by
  simp [Disk.content?, Disk.node?, Engine.logPlace_ne_nil]

/-! ## Gets of any text -/

/-- Whatever was called, a get of any text is answered with the object of the group key that the text is, or
with nothing of any object. -/
theorem unmixed_of_run {disk : Disk}
    (hfresh : ∀ place, disk.content? (Engine.logPlace place) = none) (calls : List Call) {name : String}
    {d : Depot} {handle : Handle} (hd : (run { disk } calls).depots.get? name = some d)
    (hphase : d.phase = .ready handle) (hgranted : scanRefusal? handle (run { disk } calls) = none)
    (key : String) :
    let w := run { disk } calls
    let answer := ((withObjects d fun kv codec => Access.get kv codec key).exec w).1
    (content handle w).Unmixed key answer ∧
      ∀ o, answer = .ok o → o ≠ {} → (content handle w).Holds key o := by
  intro w answer
  obtain ⟨hconsistent, hplain⟩ := consistent_run hfresh calls
  have hcodec : d.codec = .cbor := by rw [Depot.codec, (hplain name d hd).1]
  have hrepresented := hconsistent.represented_content handle
  have hanswer : answer = (content handle w).object .cbor key := by
    rw [← hcodec]
    exact get_of_granted hphase hgranted key
  have hunmixed : (content handle w).Unmixed key answer := by
    rw [hanswer]
    exact hrepresented.unmixed key
  exact ⟨hunmixed, fun o ho hne => (ho ▸ hunmixed).holds hne⟩

/-- The group key of one of two objects, a member key, two texts that group keys start with, and a group key
under which nothing is stored. -/
theorem unmixed_of_run_texts :
    let w := run {}
      [.addManager "m" "app" "user" none true false, .addDepot "s" "m" "drag" { base := "/b" }, .start "s",
        .edit "s" (.put (DataObject.sample "g" 2)), .edit "s" (.put (DataObject.sample "h" 1))]
    ∃ d handle, w.depots.get? "s" = some d ∧ d.phase = .ready handle ∧
      let answer := fun key => ((withObjects d fun kv codec => Access.get kv codec key).exec w).1
      (∃ o, answer "udmf://drag/com.example.test/g" = .ok o ∧
        (content handle w).Holds "udmf://drag/com.example.test/g" o) ∧
      (∀ key ∈ ["udmf://drag/com.example.test/g/z-0", "udmf://drag/com.example.test", "udmf:"],
        ∃ err, answer key = .error err ∧ err.status = .unknown) ∧
      answer "udmf://drag/com.example.test/f" = .ok {} := by
  intro w
  obtain ⟨d, hd, hphase⟩ := Option.map_eq_some_iff.mp
    (by decide +kernel : (w.depots.get? "s").map Depot.phase = some (.ready (.direct 1)))
  obtain ⟨hgranted, hgroup, hothers, hnogroup, hnothing⟩ :
      scanRefusal? (.direct 1) w = none ∧
        (content (.direct 1) w).HasGroup "udmf://drag/com.example.test/g" ∧
        (∀ key ∈ ["udmf://drag/com.example.test/g/z-0", "udmf://drag/com.example.test", "udmf:"],
          ¬ (content (.direct 1) w).HasGroup key ∧ (content (.direct 1) w).Touches key) ∧
        ¬ (content (.direct 1) w).HasGroup "udmf://drag/com.example.test/f" ∧
        ¬ (content (.direct 1) w).Touches "udmf://drag/com.example.test/f" := by
    decide +kernel
  refine ⟨d, .direct 1, hd, hphase, ?_, fun key hkey => ?_, ?_⟩
  · exact (unmixed_of_run content?_empty _ hd hphase hgranted _).1.stored hgroup
  · obtain ⟨hnogroup', htouches⟩ := hothers key hkey
    exact (unmixed_of_run content?_empty _ hd hphase hgranted key).1.other hnogroup' htouches
  · exact (unmixed_of_run content?_empty _ hd hphase hgranted _).1.nothing hnogroup hnothing

/-! ## Listings -/

/-- Where the keys are what they should be, a listing gives one object for each stored group whose key starts
with the text, in key order: what a get answers for the group, or what comes before the first value that cannot
be decoded. -/
theorem listed_of_keyed {w : World} {d : Depot} {handle : Handle} (hphase : d.phase = .ready handle)
    (hgranted : scanRefusal? handle w = none) (hkeyed : (content handle w).Keyed) (front : String) :
    ∃ (groups : List String) (object : String → DataObject),
      ((withObjects d fun kv codec => Access.getAll kv codec front).exec w).1 = .ok (groups.map object) ∧
        groups.Pairwise (fun a b => compare (Utf8.encode a) (Utf8.encode b) = .lt) ∧
        (∀ g, g ∈ groups ↔ (content handle w).HasGroup g ∧ Utf8.encode front <+: Utf8.encode g) ∧
        ∀ g ∈ groups, (content handle w).Listed d.codec g
          ((withObjects d fun kv codec => Access.get kv codec g).exec w).1 (object g) := by
  obtain ⟨groups, object, hobjects, hascending, hgroups, hlisted⟩ := hkeyed.listing d.codec front
  refine ⟨groups, object, ?_, hascending, hgroups, fun g hg => ?_⟩
  · rw [getAll_of_granted hphase hgranted, hobjects]
  · rw [get_of_granted hphase hgranted]
    exact hlisted g hg

/-- Of three objects, the metadata of the first are overwritten, and of the records of the second the one whose
key is between the other two. The listing is for a text that ends within a segment. -/
theorem listed_of_keyed_damaged :
    let w₀ := run {}
      [.addManager "m" "app" "user" none true false, .addDepot "s" "m" "drag" { base := "/b" }, .start "s",
        .edit "s" (.put (DataObject.sample "f" 1)), .edit "s" (.put (DataObject.sample "g" 3)),
        .edit "s" (.put (DataObject.sample "h" 1))]
    let damage : List Entry :=
      [⟨Utf8.encode "udmf://drag/com.example.test/f", [0]⟩,
        ⟨Utf8.encode "udmf://drag/com.example.test/g/y-1", []⟩]
    let w := ((put (.direct 1) damage).exec w₀).2
    ∃ d, w.depots.get? "s" = some d ∧ d.phase = .ready (.direct 1) ∧
      ∃ (groups : List String) (object : String → DataObject),
        ((withObjects d fun kv codec => Access.getAll kv codec "udmf://drag/com.ex").exec w).1 =
            .ok (groups.map object) ∧
          (∀ g, g ∈ groups ↔ (content (.direct 1) w).HasGroup g ∧
            Utf8.encode "udmf://drag/com.ex" <+: Utf8.encode g) ∧
          (∀ g ∈ groups, (content (.direct 1) w).Listed d.codec g
            ((withObjects d fun kv codec => Access.get kv codec g).exec w).1 (object g)) ∧
          (groups.map object).map (fun o => (o.metadata.isSome, o.records.map Record.uid)) =
            [(false, []), (true, ["x-2"]), (true, ["z-0"])] := by
  intro w₀ damage w
  obtain ⟨d, hd, hready⟩ := Option.map_eq_some_iff.mp
    (by decide +kernel : (w.depots.get? "s").map (fun d => (d.phase, d.codecFaults)) =
      some (.ready (.direct 1), none))
  obtain ⟨hphase, hcodec⟩ := Prod.mk.inj hready
  obtain ⟨hgranted, hcontains, haccepted⟩ :
      scanRefusal? (.direct 1) w = none ∧
        (∀ e ∈ damage, (content (.direct 1) w₀).contains e.key = true) ∧
        refusal? (.direct 1) .put (.put damage) w₀ = none := by
    decide +kernel
  have hcontent : content (.direct 1) w = (content (.direct 1) w₀).applyPut damage := by
    show content (.direct 1) ((put (.direct 1) damage).exec w₀).2 = _
    rw [exec_put_eq, haccepted]
    exact content_applied haccepted
  -- Only values are damaged, so that the keys are those of whole objects.
  have hkeyed : (content (.direct 1) w).Keyed := by
    rw [hcontent]
    exact ((consistent_run content?_empty _).1.represented_content _).keyed.applyPut hcontains
  obtain ⟨groups, object, hgetAll, -, hgroups, hlisted⟩ :=
    listed_of_keyed hphase hgranted hkeyed "udmf://drag/com.ex"
  refine ⟨d, hd, hphase, groups, object, hgetAll, hgroups, hlisted, ?_⟩
  have hanswer := getAll_of_granted hphase hgranted "udmf://drag/com.ex"
  rw [hgetAll, Depot.codec, hcodec] at hanswer
  rw [Except.ok.inj hanswer]
  decide +kernel

end ObjectStore.World
