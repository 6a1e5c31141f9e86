import Mathlib.Data.List.GetD

/-!
# Files

The storage the log writes to and reads from. `PosixMmapFile::WriteAt` (`util/env_posix.cc`)
grows the file with `ftruncate` and copies into mapped pages, so a byte that no write covered
reads as zero; the file's length is the furthest byte written. `SequentialFile::Read` returns
the next `n` bytes, or fewer at the end of the file.

The model is a length and a total byte function. Reading is a window onto that function rather
than a copy into a scratch buffer: the reader never reads a file that is still being written,
so the two agree, and windows make the frame lemmas below (what a later write leaves alone)
statements about indices instead of about list surgery.
-/

namespace PebblesDB

/-- A file: its length and its bytes. Bytes that were never written read as zero. -/
structure File where
  /-- The end of the furthest write. -/
  size : ℕ
  /-- The byte at each offset. -/
  byte : ℕ → UInt8

namespace File

/-- A freshly created, empty file. -/
def empty : File := ⟨0, fun _ ↦ 0⟩

/-- `ConcurrentWritableFile::WriteAt`: copy `data` to `offset`, growing the file if needed. -/
def writeAt (f : File) (offset : ℕ) (data : List UInt8) : File where
  size := max f.size (offset + data.length)
  byte i := if offset ≤ i ∧ i < offset + data.length then data.getD (i - offset) 0 else f.byte i

/-- The `n` bytes starting at `offset`, as a byte string. -/
def bytes (f : File) (offset n : ℕ) : List UInt8 :=
  (List.range n).map fun i ↦ f.byte (offset + i)

@[simp] theorem size_writeAt (f : File) (offset : ℕ) (data : List UInt8) :
    (f.writeAt offset data).size = max f.size (offset + data.length) := rfl

@[simp] theorem byte_empty (i : ℕ) : empty.byte i = 0 := rfl

@[simp] theorem size_empty : empty.size = 0 := rfl

theorem byte_writeAt_of_lt {f : File} {offset i : ℕ} {data : List UInt8} (h : i < offset) :
    (f.writeAt offset data).byte i = f.byte i := by
  simp only [writeAt, if_neg (by omega : ¬(offset ≤ i ∧ i < offset + data.length))]

theorem byte_writeAt_of_ge {f : File} {offset i : ℕ} {data : List UInt8}
    (h : offset + data.length ≤ i) : (f.writeAt offset data).byte i = f.byte i := by
  simp only [writeAt, if_neg (by omega : ¬(offset ≤ i ∧ i < offset + data.length))]

theorem byte_writeAt_of_mem {f : File} {offset k : ℕ} {data : List UInt8}
    (h : k < data.length) : (f.writeAt offset data).byte (offset + k) = data.getD k 0 := by
  have hin : offset ≤ offset + k ∧ offset + k < offset + data.length := ⟨by omega, by omega⟩
  simp only [writeAt, if_pos hin, Nat.add_sub_cancel_left]

@[simp] theorem length_bytes (f : File) (offset n : ℕ) : (f.bytes offset n).length = n := by
  simp [bytes]

/-- A window splits at any point into two adjacent windows. -/
theorem bytes_add (f : File) (offset m n : ℕ) :
    f.bytes offset (m + n) = f.bytes offset m ++ f.bytes (offset + m) n := by
  refine List.ext_getElem (by simp) fun i h1 _ ↦ ?_
  by_cases hi : i < m
  · simp [bytes, List.getElem_append_left, hi]
  · have hm : m ≤ i := by omega
    simp [bytes, List.getElem_append_right, hm, Nat.add_assoc, Nat.add_sub_cancel' hm]

theorem bytes_congr {f g : File} {offset n : ℕ}
    (h : ∀ i, offset ≤ i → i < offset + n → f.byte i = g.byte i) :
    f.bytes offset n = g.bytes offset n := by
  apply List.map_congr_left
  intro i hi
  exact h _ (by omega) (by simp at hi; omega)

/-- **Frame rule.** A write that ends before a window, or starts after it, leaves the window's
bytes alone. -/
theorem bytes_writeAt_of_disjoint {f : File} {offset n offset' : ℕ} {data : List UInt8}
    (h : offset' + data.length ≤ offset ∨ offset + n ≤ offset') :
    (f.writeAt offset' data).bytes offset n = f.bytes offset n := by
  apply bytes_congr
  intro i h1 h2
  rcases h with h | h
  · exact byte_writeAt_of_ge (by omega)
  · exact byte_writeAt_of_lt (by omega)

/-- **Read back.** Right after a write, a window inside it reads the written bytes. -/
theorem bytes_writeAt_within {f : File} {offset k n : ℕ} {data : List UInt8}
    (h : k + n ≤ data.length) :
    (f.writeAt offset data).bytes (offset + k) n = (data.drop k).take n := by
  apply List.ext_getElem
  · simp; omega
  · intro i h1 h2
    simp only [bytes, List.getElem_map, List.getElem_range, List.getElem_take, List.getElem_drop]
    rw [Nat.add_assoc, byte_writeAt_of_mem (by simp at h1; omega), List.getD_eq_getElem]

theorem bytes_writeAt_self (f : File) (offset : ℕ) (data : List UInt8) :
    (f.writeAt offset data).bytes offset data.length = data := by
  have h := @bytes_writeAt_within f offset 0 data.length data (by omega)
  simpa using h

theorem byte_eq_of_bytes {f : File} {offset n : ℕ} {data : List UInt8}
    (h : f.bytes offset n = data) {k : ℕ} (hk : k < n) : f.byte (offset + k) = data.getD k 0 := by
  subst h
  simp [bytes, hk]

/-- A window inside a window of known bytes reads the matching slice of them. -/
theorem bytes_of_bytes {f : File} {offset n : ℕ} {data : List UInt8} (h : f.bytes offset n = data)
    {k m : ℕ} (hkm : k + m ≤ n) : f.bytes (offset + k) m = (data.drop k).take m := by
  subst h
  refine List.ext_getElem (by simp; omega) fun i h1 _ ↦ ?_
  simp only [bytes, List.getElem_map, List.getElem_range, List.getElem_take, List.getElem_drop,
    Nat.add_assoc]

@[simp] theorem bytes_empty (offset n : ℕ) : empty.bytes offset n = List.replicate n 0 := by
  simp [bytes, List.map_const']

end File

end PebblesDB
