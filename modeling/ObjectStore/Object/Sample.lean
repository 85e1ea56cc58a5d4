import ObjectStore.Object.Basic

/-!
# Sample objects

Objects of mixed kinds whose record ids come in another order than the records themselves.
-/

namespace ObjectStore.DataObject

/-- The payload of the `i`-th sample record: plain text, an image and a form in turn. -/
def samplePayload (i : Nat) : Payload :=
  match i % 3 with
  | 0 => .plainText ∅ s!"text {i}" ""
  | 1 => .file .image ∅ s!"file://media/{i}.png"
  | _ =>
    .form ∅
      { formId := Int32.ofNat (min i 2147483647)
        formName := s!"form{i}"
        bundleName := "com.example.test"
        abilityName := "Main"
        moduleName := "entry" }

/-- The id of the `i`-th sample record: letters descend from `z` and start over after `a`. -/
def sampleUid (i : Nat) : String :=
  String.ofList [Char.ofNat ('z'.toNat - i % 26)] ++ s!"-{i}"

/-- An object of `count` sample records in the given group. -/
def sample (group : String) (count : Nat) : DataObject where
  metadata := some
    { key := ObjectKey.ofSegments "drag" "com.example.test" group
      createTime := 1700000000000
      lastModifiedTime := 1700000000500
      sourcePackage := "com.example.test"
      deviceId := "local"
      recordTotal := UInt32.ofNat (min count 4294967295) }
  records := (List.range count).map fun i => { uid := sampleUid i, value := samplePayload i }

end ObjectStore.DataObject
