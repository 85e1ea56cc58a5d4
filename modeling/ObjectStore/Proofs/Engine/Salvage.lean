import ObjectStore.Proofs.Engine.Opening

/-!
# What is salvaged from a log

The bytes of a log may be anything. What a scan accepts of them is the longest front part that consists
of whole records (`Intact`), and that decides how an opening of the directory ends. The engine holds what
these records build, and whatever comes after them is cut off if that is allowed. Where it is not allowed
and there is something to cut off, the opening is refused, and the log stays as it is.

Main statements: `intact_accepted`, `opened_of_content` and `refused_of_content`.
-/

namespace ObjectStore

namespace Log

/-- What a scan accepts of some bytes. -/
def accepted (bs : Bytes) : Bytes :=
  bs.take (scan bs).validLength

/-- The bytes begin with the records of the batches, and no longer front part of them consists of
records. -/
structure Intact (bs front : Bytes) (batches : List Batch) : Prop where
  encoded : encodeAll batches = .ok front
  isPrefix : front <+: bs
  longest : ∀ {front' batches'}, encodeAll batches' = .ok front' → front' <+: bs → front' <+: front

theorem length_accepted (bs : Bytes) : (accepted bs).length = (scan bs).validLength := by
  obtain ⟨front, rest, -, hbs, hlength, -⟩ := encodeAll_scan bs
  have hle : (scan bs).validLength ≤ bs.length := by
    rw [hlength, hbs, List.length_append]
    exact Nat.le_add_right _ _
  rw [accepted, List.length_take, Nat.min_eq_left hle]

/-- A scan accepts all whole records at the front, and finds damage if there is anything after them. -/
theorem intact_accepted (bs : Bytes) :
    Intact bs (accepted bs) (scan bs).batches ∧ ((scan bs).damage = none ↔ bs = accepted bs) := by
  obtain ⟨front, rest, hall, hbs, hlength, hdamage⟩ := encodeAll_scan bs
  have haccepted : accepted bs = front := by
    rw [accepted, hlength, hbs]
    exact List.take_left
  rw [haccepted]
  constructor
  · refine ⟨hall, ⟨rest, hbs.symm⟩, fun {front' batches'} hall' hprefix => ?_⟩
    -- The scan reads the other records too, so that it comes at least to their end.
    obtain ⟨rest', hbs'⟩ := hprefix
    have hscan := scan_append_of_encodeAll hall' rest'
    rw [hbs'] at hscan
    have hle : front'.length ≤ front.length := by
      rw [← hlength, hscan]
      exact Nat.le_add_right _ _
    exact List.prefix_of_prefix_length_le ⟨rest', hbs'⟩ ⟨rest, hbs.symm⟩ hle
  · rw [hdamage]
    constructor
    · intro hrest
      rw [hbs, hrest, List.append_nil]
    · intro hfront
      rw [hfront] at hbs
      exact List.self_eq_append_right.mp hbs

end Log

namespace Engine

open Disk

variable {path : String} {held : List String → Bool} {d : Disk} {place : List String} {content : Bytes}
  (hfind : d.find path = .ok (place, .directory))
  (hlock : d.node? (lockPlace place) ≠ some .directory)
  (hlog : d.content? (logPlace place) = some content) (hfree : held place = false)
  (id : String) {options : Options} (networked : Bool)

include hfind hlock hlog hfree

/-- The log of a directory that nobody holds is read, if the lock is there or can be made. -/
theorem openDirectory_of_content (options : Options) :
    ∃ d', openDirectory path id options networked held d =
        recover path id place options networked content d' ∧ Extends d d' ∧
      (d'.content? (lockPlace place)).isSome := by
  obtain ⟨⟨lock, d'⟩, hopened⟩ := Option.ne_none_iff_exists'.mp (mt openFile?_eq_none_iff.mp hlock)
  obtain ⟨hext, hlocked, -⟩ := extends_openFile? hopened
  have hlogged : d'.openFile? (logPlace place) = some (content, d') := by
    simp [openFile?, content?_eq_some_iff.mp (hext.content?_of_some hlog)]
  refine ⟨d', ?_, hext, by rw [hlocked]; rfl⟩
  unfold openDirectory prepareDirectory
  simp [hfind, hopened, hlogged, hfree]

/-- Where a damaged end may be dropped, or there is none, the engine holds what the whole records build,
and these are the log. -/
theorem opened_of_content
    (hallowed : options.removeCorrupted = true ∨ content = Log.accepted content) :
    ∃ e d', openDirectory path id options networked held d = (.ok e, d') ∧ e.isClosed = false ∧
      e.Persists d' place (Log.scan content).batches (Log.accepted content) ∧
        d'.find path = .ok (place, .directory) ∧ (d'.content? (lockPlace place)).isSome := by
  obtain ⟨d', hopen, hext, hlocked⟩ := openDirectory_of_content hfind hlock hlog hfree id networked options
  obtain ⟨hintact, hdamage⟩ := Log.intact_accepted content
  have hlog' := hext.content?_of_some hlog
  have hfind' := hext.keepsDirectories.find hfind
  have hpersists {d'' : Disk} (hkept : d''.content? (logPlace place) = some (Log.accepted content)) :
      Persists
        { id, options, table := Log.replay (Log.scan content).batches,
          backing := .directory place (Log.scan content).validLength, networked }
        d'' place (Log.scan content).batches (Log.accepted content) :=
    ⟨hintact.encoded, hkept, by rw [Log.length_accepted], rfl⟩
  rw [hopen]
  cases hfound : (Log.scan content).damage with
  | none =>
      simp only [recover, hfound]
      exact ⟨_, d', rfl, rfl, hpersists (hdamage.mp hfound ▸ hlog'), hfind', hlocked⟩
  | some damage =>
      have hremove : options.removeCorrupted = true := hallowed.resolve_right fun heq => by
        rw [hdamage.mpr heq] at hfound
        cases hfound
      simp only [recover, hfound, hremove, if_true]
      refine ⟨_, _, rfl, rfl, hpersists ?_, (KeepsDirectories.truncate d' _ _).find hfind', ?_⟩
      · exact content?_truncate_self (logPlace_ne_nil place) hlog' _
      · rwa [content?_truncate_of_ne _ (logPlace_ne_lockPlace _ _).symm]

/-- Where a damaged end may not be dropped the opening is refused, and the log stays as it is. -/
theorem refused_of_content (hoptions : options.removeCorrupted = false)
    (hdamaged : content ≠ Log.accepted content) :
    ∃ text d', openDirectory path id options networked held d = (.error (.corrupted text), d') ∧
      Extends d d' ∧ (d'.content? (lockPlace place)).isSome := by
  obtain ⟨d', hopen, hext, hlocked⟩ := openDirectory_of_content hfind hlock hlog hfree id networked options
  obtain ⟨-, hdamage⟩ := Log.intact_accepted content
  rw [hopen]
  cases hfound : (Log.scan content).damage with
  | none => exact absurd (hdamage.mp hfound) hdamaged
  | some damage =>
      simp only [recover, hfound, hoptions, Bool.false_eq_true, if_false]
      exact ⟨_, d', rfl, hext, hlocked⟩

end Engine

end ObjectStore
