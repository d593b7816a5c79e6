import SystemProgramming.Networking.StoreConsistency
import SystemProgramming.Networking.Service

/-!
# The bodies of `PUT` requests

The size of a body is read into a `size_t` that was zero, and nobody looks at how many of its
bytes there were. A stream that ends within the size is taken for a body when its bytes are zeros:
a client that sends nothing after its header stores an empty file.

## Main definitions

* `DiskLaws`: what the C library does to the file at a path
* `IsBody`: a stream is a size and that many bytes
* `AcceptsComplete`: exactly the complete bodies are stored
* `BlankSize`: the stream ends within a size of zeros

## Main results

* `complete_iff`: which streams the transfer loop takes for complete
* `acceptsComplete_iff`: exactly the complete bodies are stored, unless the stream ends within a
  size of zeros
-/

namespace SystemProgramming.Networking

/-! ## Files -/

section Files

variable {F : Type}

/-- What `fread` delivers from the file at a path, if it can be opened. -/
def DiskOps.content (fs : DiskOps F) (disk : F) (path : List UInt8) : Option (List UInt8) :=
  (fs.openRead disk path).1

/-- What the operations on files do at their path. A file that was opened for writing takes what
is written, and can be removed. -/
structure DiskLaws (fs : DiskOps F) : Prop where
  openRead : ∀ disk path, (fs.openRead disk path).2 = disk
  openWrite : ∀ disk path, (fs.openWrite disk path).1 = false →
    fs.content (fs.openWrite disk path).2 path = fs.content disk path
  write : ∀ disk path bytes, (fs.openWrite disk path).1 = true →
    fs.content (fs.write (fs.openWrite disk path).2 path bytes) path = some bytes
  remove : ∀ disk path bytes, (fs.openWrite disk path).1 = true →
    fs.content (fs.remove (fs.write (fs.openWrite disk path).2 path bytes) path).2 path = none

/-- A directory of regular files keeps the laws. -/
theorem dirDisk_laws (dir : List UInt8) : DiskLaws (dirDisk dir) where
  openRead := fun _ _ => rfl
  openWrite := fun _ _ hfail => nomatch hfail
  write := fun _ _ _ _ => Function.update_self ..
  remove := fun disk path bytes _ => by simp [DiskOps.content, dirDisk]

end Files

/-! ## Complete bodies -/

/-- A stream is an eight-byte size and that many bytes. -/
def IsBody (bytes body : List UInt8) : Prop :=
  body.length < 2 ^ 64 ∧ bytes = sizeBytes body.length ++ body

/-- The stream ends within a size of zeros. -/
def BlankSize (bytes : List UInt8) : Prop := bytes.length < 8 ∧ ∀ b ∈ bytes, b = 0

section Streams

variable {bytes body : List UInt8}

/-- Eight bytes are the size that they are read as. -/
theorem sizeBytes_sizeValue (h : bytes.length = 8) : sizeBytes (sizeValue bytes) = bytes := by
  refine Memory.read_eq_iff.mpr ⟨h, fun i hi => ?_⟩
  have hload : (Memory.zero.store 0 8 (sizeValue bytes)).load 0 8 = (Memory.ofList bytes).load 0 8 :=
    Memory.load_store_of_lt _ _ (sizeValue_lt bytes)
  have hbyte := Memory.eq_of_load_eq hload (Nat.zero_le i) (by omega)
  rw [Nat.zero_add]
  exact hbyte

/-- The size was zero before bytes were read into it. -/
theorem sizeValue_eq_zero_iff (h : bytes.length ≤ 8) : sizeValue bytes = 0 ↔ ∀ b ∈ bytes, b = 0 := by
  constructor
  · intro hzero b hb
    obtain ⟨i, hi, rfl⟩ := List.getElem_of_mem hb
    have hload : (Memory.ofList bytes).load 0 8 = Memory.zero.load 0 8 := by
      rw [Memory.load_zero]
      exact hzero
    have hbyte := Memory.eq_of_load_eq hload (Nat.zero_le i) (by omega)
    rwa [Memory.ofList, List.getD_eq_getElem?_getD, List.getElem?_eq_getElem hi] at hbyte
  · intro hzero
    rw [sizeValue, ← Memory.load_zero 0 8]
    refine Memory.load_congr fun i _ _ => ?_
    rw [Memory.ofList, List.getD_eq_getElem?_getD]
    rcases Nat.lt_or_ge i bytes.length with hi | hi
    · rw [List.getElem?_eq_getElem hi]
      exact hzero _ (List.getElem_mem hi)
    · rw [List.getElem?_eq_none hi]
      rfl

theorem IsBody.drop (h : IsBody bytes body) : bytes.drop 8 = body := by
  rw [h.2]
  exact List.drop_left' (length_sizeBytes _)

theorem IsBody.sizeValue (h : IsBody bytes body) : sizeValue (bytes.take 8) = body.length := by
  rw [h.2, List.take_left' (length_sizeBytes _)]
  exact sizeValue_sizeBytes h.1

theorem IsBody.complete (h : IsBody bytes body) (hsize : body.length + 1 ≠ 2 ^ 64) :
    Complete bytes := by
  have hlt := h.1
  rw [Complete, h.drop, h.sizeValue]
  exact ⟨rfl, by omega⟩

/-- **The streams that are taken for complete**: the complete bodies, except for those of the
largest size, and the streams that end within a size of zeros. -/
theorem complete_iff : Complete bytes ↔
    IsBody bytes (bytes.drop 8) ∧ (bytes.drop 8).length + 1 ≠ 2 ^ 64 ∨ BlankSize bytes := by
  constructor
  · rintro ⟨hsize, hroom⟩
    by_cases hlong : 8 ≤ bytes.length
    · refine Or.inl ⟨⟨by omega, ?_⟩, by omega⟩
      rw [hsize, sizeBytes_sizeValue (List.length_take_of_le hlong), List.take_append_drop]
    · -- nothing follows the size, which is zero then
      have hshort : bytes.length ≤ 8 := by omega
      rw [List.drop_eq_nil_of_le hshort, List.take_of_length_le hshort] at hsize
      exact Or.inr ⟨by omega, (sizeValue_eq_zero_iff hshort).mp hsize.symm⟩
  · rintro (⟨hbody, hsize⟩ | ⟨hshort, hzero⟩)
    · exact hbody.complete hsize
    · rw [Complete, List.drop_eq_nil_of_le hshort.le, List.take_of_length_le hshort.le,
        (sizeValue_eq_zero_iff hshort.le).mpr hzero]
      exact ⟨rfl, by decide⟩

theorem BlankSize.not_isBody (h : BlankSize bytes) : ¬ IsBody bytes body := by
  intro hbody
  have hlen := congrArg List.length hbody.2
  rw [List.length_append, length_sizeBytes] at hlen
  have := h.1
  omega

end Streams

/-! ## What is stored -/

section Stores

variable {V D F : Type} (fs : DiskOps F) (vec : VectorOps V Name) (dict : DictOps D Name Nat)
  (dir : List UInt8)

/-- A complete body is accepted, and stored with its size; anything else fails, and there is no
file then. -/
def AcceptsComplete (st : Service.Store V D F) (name : Name) (s : Source) : Prop :=
  let (failed, st', _) := Service.readPutFromClient fs vec dict dir st name s
  (∀ body, IsBody s.bytes body → failed = false ∧
    fs.content st'.disk (filepath dir name) = some body ∧
    dict.get st'.fileSize name = some body.length) ∧
  ((∀ body, ¬ IsBody s.bytes body) → failed = true ∧
    fs.content st'.disk (filepath dir name) = none)

variable {fs dir} {st : Service.Store V D F} {name : Name} {s : Source}

/-- A file that cannot be opened for writing. -/
theorem readPutFromClient_closed (hfs : DiskLaws fs)
    (hopen : (fs.openWrite st.disk (filepath dir name)).1 = false) :
    ∃ disk, Service.readPutFromClient fs vec dict dir st name s = (true, { st with disk }, s) ∧
      fs.content disk (filepath dir name) = fs.content st.disk (filepath dir name) := by
  refine ⟨(fs.openWrite st.disk (filepath dir name)).2, ?_, hfs.openWrite _ _ hopen⟩
  simp [Service.readPutFromClient, hfs.openRead, hopen]

/-- **A complete body** for a file that can be opened is stored. -/
theorem readPutFromClient_complete (hfs : DiskLaws fs) (hdict : DictLaws dict)
    (hopen : (fs.openWrite st.disk (filepath dir name)).1 = true) (hc : Complete s.bytes) :
    ∃ st' s', Service.readPutFromClient fs vec dict dir st name s = (false, st', s') ∧
      fs.content st'.disk (filepath dir name) = some (s.bytes.drop 8) ∧
      dict.get st'.fileSize name = some (s.bytes.drop 8).length := by
  obtain ⟨s', hbody⟩ := readBody_spec s
  have hreceived : (s.bytes.drop 8).take ((sizeValue (s.bytes.take 8) + 1) % 2 ^ 64) =
      s.bytes.drop 8 := by
    rw [← hc.1, Nat.mod_eq_of_lt hc.2]
    exact List.take_of_length_le (Nat.le_succ _)
  rw [hreceived, ← hc.1] at hbody
  have hput : Service.readPutFromClient fs vec dict dir st name s = (false,
      { disk := fs.write (fs.openWrite st.disk (filepath dir name)).2 (filepath dir name)
          (s.bytes.drop 8)
        fileList := if (fs.openRead st.disk (filepath dir name)).1.isSome then st.fileList
          else vec.pushBack st.fileList name
        fileSize := dict.set st.fileSize name (s.bytes.drop 8).length }, s') := by
    simp [Service.readPutFromClient, hfs.openRead, hopen, hbody]
  refine ⟨_, _, hput, hfs.write _ _ _ hopen, ?_⟩
  rw [hdict.get_set, if_pos rfl]

/-- **A body that is not taken for complete** leaves no file. -/
theorem readPutFromClient_incomplete (hfs : DiskLaws fs)
    (hopen : (fs.openWrite st.disk (filepath dir name)).1 = true) (hc : ¬ Complete s.bytes) :
    ∃ st' s', Service.readPutFromClient fs vec dict dir st name s = (true, st', s') ∧
      fs.content st'.disk (filepath dir name) = none := by
  obtain ⟨s', hbody⟩ := readBody_spec s
  obtain ⟨received, hreceived⟩ : ∃ received, received =
    (s.bytes.drop 8).take ((sizeValue (s.bytes.take 8) + 1) % 2 ^ 64) := ⟨_, rfl⟩
  have herror : isError received.length (sizeValue (s.bytes.take 8)) = true := by
    rw [← Bool.not_eq_false, isError_eq_false, hreceived, length_received_iff]
    exact hc
  rw [← hreceived] at hbody
  have hput : Service.readPutFromClient fs vec dict dir st name s = (true,
      { st with disk := (fs.remove (fs.write (fs.openWrite st.disk (filepath dir name)).2
          (filepath dir name) received) (filepath dir name)).2 }, s') := by
    simp [Service.readPutFromClient, hfs.openRead, hopen, hbody, herror]
  exact ⟨_, _, hput, hfs.remove _ _ _ hopen⟩

variable (st name s)

/-- **`read_put_from_client`** accepts exactly the complete bodies if the file can be opened,
unless the stream ends within a size of zeros or has the largest size, which leaves no room for
one more byte. If the file cannot be opened, it must not be there and the body not be complete. -/
theorem acceptsComplete_iff (hfs : DiskLaws fs) (hdict : DictLaws dict) :
    AcceptsComplete fs vec dict dir st name s ↔
      if (fs.openWrite st.disk (filepath dir name)).1 then
        ¬ BlankSize s.bytes ∧ ∀ body, IsBody s.bytes body → body.length + 1 ≠ 2 ^ 64
      else fs.content st.disk (filepath dir name) = none ∧ ∀ body, ¬ IsBody s.bytes body := by
  by_cases hopen : (fs.openWrite st.disk (filepath dir name)).1 = true
  · rw [if_pos hopen]
    by_cases hc : Complete s.bytes
    · obtain ⟨st', s', heq, hcontent, hsize⟩ :=
        readPutFromClient_complete vec dict hfs hdict hopen hc
      rw [AcceptsComplete, heq]
      dsimp only
      constructor
      · rintro ⟨-, hreject⟩
        -- a blank size is no body, but it is accepted
        refine ⟨fun hblank => ?_, fun body hbody => ?_⟩
        · exact absurd (hreject fun _ => hblank.not_isBody).1 (by decide)
        · have hroom := hc.2
          rw [hbody.drop] at hroom
          omega
      · rintro ⟨hblank, -⟩
        obtain ⟨hbody, -⟩ := (complete_iff.mp hc).resolve_right hblank
        refine ⟨fun body hbody' => ⟨rfl, ?_⟩, fun hnone => absurd hbody (hnone _)⟩
        rw [← hbody'.drop]
        exact ⟨hcontent, hsize⟩
    · obtain ⟨st', s', heq, hcontent⟩ :=
        readPutFromClient_incomplete vec dict hfs hopen hc
      rw [AcceptsComplete, heq]
      dsimp only
      constructor
      · rintro ⟨haccept, -⟩
        refine ⟨fun hblank => hc (complete_iff.mpr (Or.inr hblank)), fun body hbody => ?_⟩
        exact absurd (haccept body hbody).1 (by decide)
      · rintro ⟨-, hsize⟩
        refine ⟨fun body hbody => absurd (hbody.complete (hsize body hbody)) hc, fun _ => ?_⟩
        exact ⟨rfl, hcontent⟩
  · rw [if_neg hopen]
    obtain ⟨disk, heq, hcontent⟩ := readPutFromClient_closed vec dict (s := s) hfs
      (Bool.not_eq_true _ ▸ hopen)
    rw [AcceptsComplete, heq]
    dsimp only
    rw [hcontent]
    constructor
    · rintro ⟨haccept, hreject⟩
      have hnone : ∀ body, ¬ IsBody s.bytes body := fun body hbody =>
        absurd (haccept body hbody).1 (by decide)
      exact ⟨(hreject hnone).2, hnone⟩
    · rintro ⟨hcontent, hnone⟩
      exact ⟨fun body hbody => absurd hbody (hnone body), fun _ => ⟨rfl, hcontent⟩⟩

end Stores

/-- Two bytes, and their size. -/
theorem acceptsComplete_iff_two : AcceptsComplete (dirDisk []) listVector listDict []
    ⟨fun _ => none, [], []⟩ [97] ⟨sizeBytes 2 ++ [104, 105], []⟩ := by
  have hbody : IsBody (sizeBytes 2 ++ [104, 105]) [104, 105] := ⟨by decide, rfl⟩
  rw [acceptsComplete_iff _ _ _ _ _ (dirDisk_laws []) listDict_laws]
  show ¬ BlankSize _ ∧ _
  refine ⟨fun hblank => hblank.not_isBody hbody, fun body hbody' => ?_⟩
  have hsame : body = [104, 105] := hbody'.drop.symm.trans hbody.drop
  rw [hsame]
  decide

/-- A connection that is closed after the header. -/
theorem not_acceptsComplete_empty : ¬ AcceptsComplete (dirDisk []) listVector listDict []
    ⟨fun _ => none, [], []⟩ [97] ⟨[], []⟩ := by
  rw [acceptsComplete_iff _ _ _ _ _ (dirDisk_laws []) listDict_laws]
  exact fun h => h.1 ⟨by decide, nofun⟩

end SystemProgramming.Networking
