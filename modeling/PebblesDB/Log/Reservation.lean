import PebblesDB.Lib.Run
import PebblesDB.Log.Writer

/-!
# Reserving log space

`Writer::AddRecord` takes the byte range of a record in two steps that share no code: a
compare-and-swap installs `end_offset`, computed in closed form (`reservedEnd`), and the fragment
loop then writes from the old offset (`emitFragments`). This module computes where that loop
stops (`fragmentsEnd`), shows that the loop writes nothing outside `[offset, fragmentsEnd)` and
reaches its end (`bytes_emitFragments_of_disjoint`, `size_emitFragments`), and compares the two
ends exactly (`reservedEnd_eq_fragmentsEnd`). They agree unless the record is cut into
fragments and its last fragment ends on a block boundary: `ComputeRecordSize` then still counts
a header for the empty leftover, and the reservation runs seven bytes past what is written.
From every offset some payload length hits that case (`exists_reservedEnd_gap`).

The reserved ranges themselves never overlap, whatever the interleaving of the threads: a
compare-and-swap installs a new end only over the offset its thread read, so the reservations
follow one another (`Chained`), and each record's writes end before the next record's
reservation starts (`reachable_writes_disjoint`).
-/

namespace PebblesDB.Log

/-! ## Where the fragment loop stops -/

/-- The offset after the last fragment that `emitFragments` writes for an `n`-byte rest from
`offset`: the same loop, keeping only the offsets. -/
def fragmentsEnd (offset n : ℕ) : ℕ :=
  let start := fragmentStart offset
  let fragmentLength := min n (fragmentRoom start)
  if 0 < n - fragmentLength then
    fragmentsEnd (start + kHeaderSize + fragmentLength) (n - fragmentLength)
  else start + kHeaderSize + fragmentLength
termination_by 2 * n + headerOnlyRoom offset
decreasing_by exact fragment_progress offset n ‹_›

/-- The last fragment: what is left fits in the block. -/
theorem fragmentsEnd_of_le {offset n : ℕ}
    (htrailer : kHeaderSize ≤ kBlockSize - offset % kBlockSize) (hfit : n ≤ fragmentRoom offset) :
    fragmentsEnd offset n = offset + kHeaderSize + n := by
  rw [fragmentsEnd, fragmentStart_of_le htrailer, min_eq_left hfit, Nat.sub_self,
    if_neg (Nat.lt_irrefl 0)]

/-- A fragment that fills the block: the loop goes on from the next block. -/
theorem fragmentsEnd_of_lt {offset n : ℕ}
    (htrailer : kHeaderSize ≤ kBlockSize - offset % kBlockSize) (hspill : fragmentRoom offset < n) :
    fragmentsEnd offset n =
      fragmentsEnd (offset + kHeaderSize + fragmentRoom offset) (n - fragmentRoom offset) := by
  rw [fragmentsEnd, fragmentStart_of_le htrailer, min_eq_right hspill.le, if_pos (by omega)]

theorem kHeaderSize_le_fragmentStart (offset : ℕ) :
    kHeaderSize ≤ kBlockSize - fragmentStart offset % kBlockSize := by
  have h := (fragmentStart_mod offset).1
  simp only [kBlockSize, kHeaderSize] at h ⊢
  omega

/-- A trailer too short for a header is skipped before anything is written. -/
theorem fragmentsEnd_fragmentStart (offset n : ℕ) :
    fragmentsEnd offset n = fragmentsEnd (fragmentStart offset) n := by
  rw [fragmentsEnd.eq_1 offset n, fragmentsEnd.eq_1 (fragmentStart offset) n,
    fragmentStart_of_le (kHeaderSize_le_fragmentStart offset)]

/-- The end of a rest of `r > 0` bytes written from a block boundary: every full block carries
`kBlockSize - kHeaderSize` bytes of it, and the last block the remaining `1` to
`kBlockSize - kHeaderSize`. -/
theorem fragmentsEnd_aligned {b r : ℕ} (hb : b % kBlockSize = 0) (hr : 0 < r) :
    fragmentsEnd b r = b + kBlockSize * ((r - 1) / (kBlockSize - kHeaderSize)) + kHeaderSize +
      ((r - 1) % (kBlockSize - kHeaderSize) + 1) := by
  have htrailer : kHeaderSize ≤ kBlockSize - b % kBlockSize := by rw [hb]; decide
  have hroom : fragmentRoom b = kBlockSize - kHeaderSize := by
    rw [fragmentRoom, hb, Nat.sub_zero]
  by_cases hfit : r ≤ fragmentRoom b
  · rw [fragmentsEnd_of_le htrailer hfit]
    rw [hroom] at hfit
    simp only [kBlockSize, kHeaderSize] at hfit ⊢
    omega
  · -- one full block, then the same from the next boundary
    have hnext : (b + kHeaderSize + fragmentRoom b) % kBlockSize = 0 := by
      rw [hroom]
      simp only [kBlockSize, kHeaderSize] at hb ⊢
      omega
    rw [fragmentsEnd_of_lt htrailer (Nat.lt_of_not_le hfit),
      fragmentsEnd_aligned hnext (Nat.sub_pos_of_lt (Nat.lt_of_not_le hfit)), hroom]
    rw [hroom] at hfit
    simp only [kBlockSize, kHeaderSize] at hfit ⊢
    omega
termination_by r
decreasing_by
  have : 0 < fragmentRoom b := by rw [hroom]; decide
  omega

/-! ## The loop writes exactly `[offset, fragmentsEnd)` -/

/-- The first fragment lies at or after `offset`. -/
theorem le_fragmentStart (offset : ℕ) : offset ≤ fragmentStart offset := by
  unfold fragmentStart
  split <;> omega

/-- The loop ends after it starts. -/
theorem le_fragmentsEnd (offset n : ℕ) : offset + kHeaderSize ≤ fragmentsEnd offset n := by
  rw [fragmentsEnd]
  have hstart := le_fragmentStart offset
  split
  · have := le_fragmentsEnd (fragmentStart offset + kHeaderSize +
      min n (fragmentRoom (fragmentStart offset))) (n - min n (fragmentRoom (fragmentStart offset)))
    omega
  · omega
termination_by 2 * n + headerOnlyRoom offset
decreasing_by exact fragment_progress offset n ‹_›

/-- **Frame rule.** The fragment loop leaves every window outside `[offset, fragmentsEnd)`
alone. -/
theorem bytes_emitFragments_of_disjoint {dest : File} {rest : List UInt8} {offset : ℕ}
    {isBegin : Bool} {o m : ℕ} (h : o + m ≤ offset ∨ fragmentsEnd offset rest.length ≤ o) :
    (emitFragments dest rest offset isBegin).bytes o m = dest.bytes o m := by
  have hstart := le_fragmentStart offset
  rw [emitFragments]
  -- the trailer's zeros lie in `[offset, fragmentStart offset)`
  have htrailer : (if kBlockSize - offset % kBlockSize < kHeaderSize then
      dest.writeAt offset (List.replicate (kBlockSize - offset % kBlockSize) 0)
    else dest).bytes o m = dest.bytes o m := by
    split
    · next hshort =>
      have hend := le_fragmentsEnd (fragmentStart offset) rest.length
      rw [← fragmentsEnd_fragmentStart] at hend
      have hfs : fragmentStart offset = offset + (kBlockSize - offset % kBlockSize) := by
        rw [fragmentStart, if_pos hshort]
      exact File.bytes_writeAt_of_disjoint (by rw [List.length_replicate]; omega)
    · rfl
  have hend := le_fragmentsEnd (fragmentStart offset) rest.length
  rw [← fragmentsEnd_fragmentStart] at hend
  split
  · next hmore =>
    have hrest : fragmentsEnd offset rest.length = fragmentsEnd
        (fragmentStart offset + kHeaderSize + min rest.length (fragmentRoom (fragmentStart offset)))
        (rest.drop (min rest.length (fragmentRoom (fragmentStart offset)))).length := by
      rw [fragmentsEnd, List.length_drop, if_pos hmore]
    have hnext := le_fragmentsEnd (fragmentStart offset + kHeaderSize +
      min rest.length (fragmentRoom (fragmentStart offset)))
      (rest.drop (min rest.length (fragmentRoom (fragmentStart offset)))).length
    rw [bytes_emitFragments_of_disjoint (by omega), bytes_emitPhysicalRecordAt_of_disjoint
      (by rw [List.length_take]; omega), htrailer]
  · next hlast =>
    have hrest : fragmentsEnd offset rest.length = fragmentStart offset + kHeaderSize +
        min rest.length (fragmentRoom (fragmentStart offset)) := by
      rw [fragmentsEnd, if_neg hlast]
    rw [bytes_emitPhysicalRecordAt_of_disjoint (by rw [List.length_take]; omega), htrailer]
termination_by 2 * rest.length + headerOnlyRoom offset
decreasing_by
  simp only [List.length_drop]
  exact fragment_progress offset rest.length ‹_›

/-- The fragment loop reaches `fragmentsEnd`: the file ends there unless it was longer. -/
theorem size_emitFragments (dest : File) (rest : List UInt8) (offset : ℕ) (isBegin : Bool) :
    (emitFragments dest rest offset isBegin).size =
      max dest.size (fragmentsEnd offset rest.length) := by
  have hstart := le_fragmentStart offset
  have hend := le_fragmentsEnd (fragmentStart offset) rest.length
  rw [← fragmentsEnd_fragmentStart] at hend
  -- the trailer ends at `fragmentStart offset`, before the first header
  have htrailer : (if kBlockSize - offset % kBlockSize < kHeaderSize then
      dest.writeAt offset (List.replicate (kBlockSize - offset % kBlockSize) 0)
    else dest).size ≤ max dest.size (fragmentStart offset) := by
    split
    · next hshort =>
      rw [File.size_writeAt, List.length_replicate, fragmentStart, if_pos hshort]
    · exact le_max_left _ _
  rw [emitFragments]
  split
  · next hmore =>
    rw [size_emitFragments, size_emitPhysicalRecordAt, List.length_drop, List.length_take,
      fragmentsEnd.eq_1 offset, if_pos hmore]
    have hnext := le_fragmentsEnd (fragmentStart offset + kHeaderSize +
      min rest.length (fragmentRoom (fragmentStart offset)))
      (rest.length - min rest.length (fragmentRoom (fragmentStart offset)))
    have hge : dest.size ≤ (if kBlockSize - offset % kBlockSize < kHeaderSize then
        dest.writeAt offset (List.replicate (kBlockSize - offset % kBlockSize) 0)
      else dest).size := by
      split
      · exact le_max_left _ _
      · exact le_rfl
    omega
  · next hlast =>
    rw [size_emitPhysicalRecordAt, List.length_take, fragmentsEnd.eq_1 offset, if_neg hlast]
    have hge : dest.size ≤ (if kBlockSize - offset % kBlockSize < kHeaderSize then
        dest.writeAt offset (List.replicate (kBlockSize - offset % kBlockSize) 0)
      else dest).size := by
      split
      · exact le_max_left _ _
      · exact le_rfl
    omega
termination_by 2 * rest.length + headerOnlyRoom offset
decreasing_by
  simp only [List.length_drop]
  exact fragment_progress offset rest.length ‹_›

/-! ## The reservation against the written end -/

/-- `AddRecord` rounds a start in a too-short trailer up to the next block, as the loop skips
it. -/
theorem roundupStart_eq_fragmentStart (offset : ℕ) :
    (if kBlockSize - offset % kBlockSize < kHeaderSize then
      (offset + kHeaderSize) / kBlockSize * kBlockSize
    else offset) = fragmentStart offset := by
  unfold fragmentStart
  split
  · simp only [kBlockSize, kHeaderSize] at *
    omega
  · rfl

/-- **The reservation and the written end.** `reservedEnd` is where the fragment loop stops,
plus a header's length exactly when the record is cut into fragments and ends on a block
boundary. -/
theorem reservedEnd_eq_fragmentsEnd (offset n : ℕ) :
    reservedEnd offset n = fragmentsEnd offset n +
      if fragmentRoom (fragmentStart offset) < n ∧ fragmentsEnd offset n % kBlockSize = 0 then
        kHeaderSize
      else 0 := by
  have htrailer := kHeaderSize_le_fragmentStart offset
  rw [reservedEnd, roundupStart_eq_fragmentStart, fragmentsEnd_fragmentStart]
  generalize fragmentStart offset = s at htrailer ⊢
  by_cases hfit : n ≤ fragmentRoom s
  · -- one fragment: both ends are `s + kHeaderSize + n`
    have hroom : kHeaderSize + n ≤ kBlockSize - s % kBlockSize := by
      unfold fragmentRoom at hfit
      omega
    rw [if_pos hroom, fragmentsEnd_of_le htrailer hfit, if_neg (fun h ↦ absurd h.1 (by omega))]
    rfl
  · -- the first fragment fills the block; the rest starts at the boundary `b`
    have hspill := Nat.lt_of_not_le hfit
    have hroom : ¬ kHeaderSize + n ≤ kBlockSize - s % kBlockSize := by
      unfold fragmentRoom at hspill
      omega
    have hb : (s + kHeaderSize + fragmentRoom s) % kBlockSize = 0 := by
      unfold fragmentRoom
      simp only [kBlockSize, kHeaderSize] at htrailer ⊢
      omega
    rw [if_neg hroom, fragmentsEnd_of_lt htrailer hspill,
      fragmentsEnd_aligned hb (Nat.sub_pos_of_lt hspill), computeRecordSize]
    -- the reservation counts a header for an empty leftover: the two differ exactly there
    split
    all_goals
      unfold fragmentRoom at *
      simp only [kBlockSize, kHeaderSize] at *
      omega

/-- **The reservation overshoots.** From every offset there is a payload length whose
reservation ends a header's length past the last byte the fragment loop writes: the first
fragment fills its block and the second fills the next one exactly. -/
theorem exists_reservedEnd_gap (offset : ℕ) :
    ∃ n, reservedEnd offset n = fragmentsEnd offset n + kHeaderSize := by
  refine ⟨fragmentRoom (fragmentStart offset) + (kBlockSize - kHeaderSize), ?_⟩
  have htrailer := kHeaderSize_le_fragmentStart offset
  have hspill : fragmentRoom (fragmentStart offset) <
      fragmentRoom (fragmentStart offset) + (kBlockSize - kHeaderSize) := by
    simp only [kBlockSize, kHeaderSize]
    omega
  have hb : (fragmentStart offset + kHeaderSize + fragmentRoom (fragmentStart offset)) %
      kBlockSize = 0 := by
    unfold fragmentRoom
    simp only [kBlockSize, kHeaderSize] at htrailer ⊢
    omega
  have hend : fragmentsEnd offset (fragmentRoom (fragmentStart offset) +
      (kBlockSize - kHeaderSize)) % kBlockSize = 0 := by
    rw [fragmentsEnd_fragmentStart, fragmentsEnd_of_lt htrailer hspill,
      fragmentsEnd_aligned hb (Nat.sub_pos_of_lt hspill)]
    simp only [kBlockSize, kHeaderSize] at hb ⊢
    omega
  rw [reservedEnd_eq_fragmentsEnd, if_pos ⟨hspill, hend⟩]

/-! ## Concurrent reservations -/

namespace Reservation

/-- The log's reservation state: `offset_`, the value of `offset_` each thread read last for
the record it is adding (`start_offset`, with the payload length), and the reservations
installed so far, in order. -/
structure State where
  /-- `offset_`. -/
  offset : ℕ
  /-- Thread `t`'s `start_offset` and payload length, between its load and its
  compare-and-swap. -/
  pending : ℕ → Option (ℕ × ℕ)
  /-- The `(start_offset, slice.size())` of each successful compare-and-swap. -/
  reserved : List (ℕ × ℕ)

/-- A fresh writer: `offset_(0)`. -/
def State.init : State :=
  ⟨0, fun _ ↦ none, []⟩

/-- One atomic step of the reservation loop of `AddRecord`. -/
inductive Action
  /-- Thread `t`, adding an `n`-byte record, reads `offset_` (`__sync_add_and_fetch`). -/
  | load (t n : ℕ)
  /-- Thread `t` tries `__sync_bool_compare_and_swap(&offset_, start_offset, end_offset)`. -/
  | cas (t : ℕ)

/-- The reservation step: a compare-and-swap succeeds only over the value its thread read;
a failed one changes nothing, and the thread loads again. -/
def exec (s : State) : Action → Option State
  | .load t n => some { s with pending := Function.update s.pending t (some (s.offset, n)) }
  | .cas t =>
    match s.pending t with
    | none => none
    | some (start, n) =>
      if s.offset = start then
        some { offset := reservedEnd start n, pending := Function.update s.pending t none,
               reserved := s.reserved ++ [(start, n)] }
      else some s

/-- Reservations that follow one another from `a` to `b`: each starts where the one before
ended. -/
def Chained : ℕ → List (ℕ × ℕ) → ℕ → Prop
  | a, [], b => a = b
  | a, r :: rs, b => r.1 = a ∧ Chained (reservedEnd r.1 r.2) rs b

theorem chained_append {a b : ℕ} {rs : List (ℕ × ℕ)} (h : Chained a rs b) (n : ℕ) :
    Chained a (rs ++ [(b, n)]) (reservedEnd b n) := by
  induction rs generalizing a with
  | nil =>
    subst h
    exact ⟨rfl, rfl⟩
  | cons r rs ih => exact ⟨h.1, ih h.2⟩

/-- A reservation ends at or after its start. -/
theorem le_reservedEnd (offset n : ℕ) : offset ≤ reservedEnd offset n := by
  have := le_fragmentsEnd offset n
  rw [reservedEnd_eq_fragmentsEnd]
  omega

theorem le_of_chained {a b : ℕ} {rs : List (ℕ × ℕ)} (h : Chained a rs b) :
    a ≤ b ∧ ∀ r ∈ rs, a ≤ r.1 := by
  induction rs generalizing a with
  | nil => exact ⟨le_of_eq h, fun _ hr ↦ absurd hr List.not_mem_nil⟩
  | cons r rs ih =>
    obtain ⟨hr, hrest⟩ := h
    have hle := le_reservedEnd r.1 r.2
    obtain ⟨hab, hall⟩ := ih hrest
    refine ⟨by omega, fun r' hr' ↦ ?_⟩
    rcases List.mem_cons.mp hr' with rfl | hr'
    · exact le_of_eq hr.symm
    · have := hall r' hr'
      omega

/-- Along a chain, each record's writes end before every later reservation starts. -/
theorem Chained.writes_disjoint {a b : ℕ} {rs : List (ℕ × ℕ)} (h : Chained a rs b) :
    rs.Pairwise fun r r' ↦ fragmentsEnd r.1 r.2 ≤ r'.1 := by
  induction rs generalizing a with
  | nil => exact List.Pairwise.nil
  | cons r rs ih =>
    obtain ⟨-, hrest⟩ := h
    refine List.Pairwise.cons (fun r' hr' ↦ ?_) (ih hrest)
    have hle := (le_of_chained hrest).2 r' hr'
    have hgap := reservedEnd_eq_fragmentsEnd r.1 r.2
    omega

/-- The run invariant: the reservations so far follow one another from `0` to `offset_`. -/
theorem chained_exec {s s' : State} {a : Action} (h : Chained 0 s.reserved s.offset)
    (hs : exec s a = some s') : Chained 0 s'.reserved s'.offset := by
  cases a with
  | load t n =>
    rw [exec, Option.some_inj] at hs
    subst hs
    exact h
  | cas t =>
    rw [exec] at hs
    split at hs
    · cases hs
    · next start n _ =>
      split at hs
      · next heq =>
        rw [Option.some_inj] at hs
        subst hs heq
        exact chained_append h n
      · rw [Option.some_inj] at hs
        subst hs
        exact h

/-- **Concurrent records never overwrite each other.** In every interleaving of the
reservation loops of any number of threads, the reservations follow one another from offset
`0` up to `offset_`, and the bytes each record's fragment loop writes end before every later
reservation starts, so the written ranges are pairwise disjoint. -/
theorem reachable_writes_disjoint {s : State} (h : Machine.Reachable exec State.init s) :
    Chained 0 s.reserved s.offset ∧ s.reserved.Pairwise fun r r' ↦ fragmentsEnd r.1 r.2 ≤ r'.1 := by
  have h0 : Chained 0 State.init.reserved State.init.offset := rfl
  have hchain : Chained 0 s.reserved s.offset :=
    Machine.Reachable.invariant (fun s ↦ Chained 0 s.reserved s.offset)
      (fun _ _ _ hs hexec ↦ chained_exec hs hexec) h0 h
  exact ⟨hchain, hchain.writes_disjoint⟩

/-- Two threads race: thread `1` reserves a five-byte record first, thread `0`'s
compare-and-swap then fails, and it reserves its 65522-byte record after a second load. -/
def raceRun : List Action :=
  [.load 0 65522, .load 1 5, .cas 1, .cas 0, .load 0 65522, .cas 0]

theorem reachable_writes_disjoint_raceRun :
    ∃ s, Machine.run exec State.init raceRun = some s ∧ Chained 0 s.reserved s.offset ∧
      s.reserved.Pairwise fun r r' ↦ fragmentsEnd r.1 r.2 ≤ r'.1 :=
  ⟨_, rfl, reachable_writes_disjoint ⟨raceRun, rfl⟩⟩

end Reservation

end PebblesDB.Log
