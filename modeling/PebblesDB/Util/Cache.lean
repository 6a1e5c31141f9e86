import PebblesDB.Util.HandleTable
import PebblesDB.Lib.Run

/-!
# The LRU cache

A shard of the cache of `util/cache.cc`, `LRUCache`, holds its entries in a `HandleTable` and in
`lru_`, a circular list from the oldest entry to the newest. Every entry counts its references in
`refs`: one for the cache while the entry is in the table, one for each handle a client holds.
`Unref` frees an entry, calling its deleter, when its count falls to zero; `usage_` adds up the
charges of the entries not yet freed, and `Insert` evicts the oldest entries while `usage_` is
over `capacity_`.

The list is a list, oldest first. The heap is the list of the entries `malloc` returned and
`free` did not take back, with the address each got; addresses are never reused, so an entry is
its address. The deleter's calls are recorded in `deleted`. `refs` is a `uint32_t` and `usage_`
and the charges are `size_t`, 64 bits: they are `UInt32` and `UInt64`, and wrap.

A shard is called by `ShardedLRUCache`, which passes the hash of the key; `Client` is a shard
together with the handles its clients hold, and `exec` its calls. A client releases only a
handle it holds.

## Results

`Inv` is the state of a shard between calls: the table well formed and its entries those of the
list, each entry's `refs` its references, the entries without references freed, and `usage_` the
charges of the others, modulo `2 ^ 64`. Every call keeps it while no entry has `2 ^ 32 - 1`
handles out, past which `refs` wraps (`exec_inv`), so it holds along every run
(`reachable_inv`). `Insert` leaves `usage_` at most `capacity_` or no entry in the list
(`usage_insert`), and what a lookup finds changes as in a map from which the cache may drop
entries (`MapStep`, `exec_mapStep`).
-/

namespace PebblesDB

/-- `LRUCache`: its capacity, usage, list and table, and the memory of its entries. -/
structure LRUCache (κ ν : Type*) where
  /-- `capacity_`. -/
  capacity : UInt64
  /-- `usage_`. -/
  usage : UInt64
  /-- `lru_`, from `lru_.next`, the oldest entry, to `lru_.prev`, the newest. -/
  lru : List (LRUHandle κ ν)
  /-- `table_`. -/
  table : HandleTable κ ν
  /-- The `refs` of each entry, by address. -/
  refs : ℕ → UInt32
  /-- The entries `malloc` returned and `free` has not taken back. -/
  heap : List (LRUHandle κ ν)
  /-- The address the next `malloc` returns. -/
  nextAddr : ℕ
  /-- The entries whose deleter was called, in order. -/
  deleted : List (LRUHandle κ ν)

namespace LRUCache

variable {κ ν : Type*} [DecidableEq κ] [DecidableEq ν]

/-- `LRUCache()` and `SetCapacity(capacity)`: an empty list and table. -/
def new (capacity : UInt64) : LRUCache κ ν :=
  ⟨capacity, 0, [], HandleTable.new, fun _ ↦ 0, [], 0, []⟩

variable (c : LRUCache κ ν)

/-- `Unref(e)`: one reference less; at none left, the charge leaves `usage_`, the deleter is
called and the entry freed. -/
def unref (e : LRUHandle κ ν) : LRUCache κ ν :=
  let refs := c.refs e.addr - 1
  let c := { c with refs := Function.update c.refs e.addr refs }
  -- `e->refs <= 0` on an unsigned count
  if refs = 0 then
    { c with usage := c.usage - e.charge, heap := c.heap.erase e, deleted := c.deleted ++ [e] }
  else c

/-- `LRU_Remove(e)`. -/
def lruRemove (e : LRUHandle κ ν) : LRUCache κ ν :=
  { c with lru := c.lru.erase e }

/-- `LRU_Append(e)`: `e` becomes the newest entry. -/
def lruAppend (e : LRUHandle κ ν) : LRUCache κ ν :=
  { c with lru := c.lru ++ [e] }

@[simp] theorem table_lruRemove (e : LRUHandle κ ν) : (c.lruRemove e).table = c.table := rfl

@[simp] theorem lru_lruRemove (e : LRUHandle κ ν) : (c.lruRemove e).lru = c.lru.erase e := rfl

omit [DecidableEq κ] [DecidableEq ν] in
@[simp] theorem table_lruAppend (e : LRUHandle κ ν) : (c.lruAppend e).table = c.table := rfl

@[simp] theorem lru_unref (e : LRUHandle κ ν) : (c.unref e).lru = c.lru := by
  unfold unref
  dsimp only
  split <;> rfl

@[simp] theorem table_unref (e : LRUHandle κ ν) : (c.unref e).table = c.table := by
  unfold unref
  dsimp only
  split <;> rfl

@[simp] theorem capacity_unref (e : LRUHandle κ ν) : (c.unref e).capacity = c.capacity := by
  unfold unref
  dsimp only
  split <;> rfl

/-- `Lookup(key, hash)`: the entry with the key, which gets a reference more and becomes the
newest. -/
def lookup (key : κ) (hash : UInt32) : LRUCache κ ν × Option (LRUHandle κ ν) :=
  match c.table.lookup key hash with
  | some e =>
    (({ c with refs := Function.update c.refs e.addr (c.refs e.addr + 1) }.lruRemove e).lruAppend
      e, some e)
  | none => (c, none)

/-- `Release(handle)`. -/
def release (handle : LRUHandle κ ν) : LRUCache κ ν :=
  c.unref handle

/-- The loop of `Insert` that evicts the oldest entry while `usage_` is over `capacity_`. -/
def evict (s : LRUCache κ ν) : LRUCache κ ν :=
  if s.usage > s.capacity then
    match h : s.lru with
    | [] => s
    | old :: _ =>
      have : (s.lruRemove old).lru.length < s.lru.length := by
        simp [lruRemove, h]
      evict ({ s.lruRemove old with table := (s.table.remove old.key old.hash).1 }.unref old)
  else s
termination_by s.lru.length

theorem evict_of_le {s : LRUCache κ ν} (h : ¬ s.usage > s.capacity) : s.evict = s := by
  rw [evict, if_neg h]

theorem evict_of_nil {s : LRUCache κ ν} (h : s.lru = []) : s.evict = s := by
  rw [evict]
  split
  · split
    · rfl
    · rename_i hcons
      rw [h] at hcons
      cases hcons
  · rfl

/-- A round of the loop: the oldest entry leaves the list and the table, and loses the cache's
reference. -/
theorem evict_of_cons {s : LRUCache κ ν} {old : LRUHandle κ ν} {rest : List (LRUHandle κ ν)}
    (hu : s.usage > s.capacity) (h : s.lru = old :: rest) :
    s.evict =
      ({ s.lruRemove old with table := (s.table.remove old.key old.hash).1 }.unref old).evict := by
  rw [evict, if_pos hu]
  split
  · rename_i hnil
    rw [h] at hnil
    cases hnil
  · rename_i old' rest' hcons
    rw [h, List.cons.injEq] at hcons
    rw [hcons.1]

/-- **The loop ends with `usage_` at most `capacity_`, or the list empty.** -/
theorem usage_evict (s : LRUCache κ ν) : s.evict.usage ≤ s.evict.capacity ∨ s.evict.lru = [] := by
  fun_induction evict s with
  | case1 s _ hnil => exact .inr hnil
  | case2 s _ old rest _ _ ih => exact ih
  | case3 s hle => exact .inl (UInt64.not_lt.1 hle)

/-- `Insert(key, hash, value, charge, deleter)`: a new entry with two references, one for the
cache and one for the handle returned, in the table in place of the entry with its key, which
loses the cache's reference; then the evictions. -/
def insert (key : κ) (hash : UInt32) (value : ν) (charge : UInt64) :
    LRUCache κ ν × LRUHandle κ ν :=
  let e : LRUHandle κ ν := ⟨c.nextAddr, key, hash, value, charge⟩
  let c := { c with nextAddr := c.nextAddr + 1, heap := c.heap ++ [e],
                    refs := Function.update c.refs e.addr 2 }
  let c := { c.lruAppend e with usage := c.usage + charge }
  let (table, old) := c.table.insert e
  let c := { c with table }
  let c := match old with
    | some old => (c.lruRemove old).unref old
    | none => c
  (c.evict, e)

/-- `Insert` before its evictions: the new entry is allocated, appended to the list and written
into the table, and the entry of its key that was there leaves the list and loses the cache's
reference. -/
theorem insert_eq (key : κ) (hash : UInt32) (value : ν) (charge : UInt64) :
    c.insert key hash value charge =
      (let e : LRUHandle κ ν := ⟨c.nextAddr, key, hash, value, charge⟩
       let d : LRUCache κ ν :=
         { c with usage := c.usage + charge, lru := c.lru ++ [e], table := (c.table.insert e).1,
                  refs := Function.update c.refs e.addr 2, heap := c.heap ++ [e],
                  nextAddr := c.nextAddr + 1 }
       ((match c.table.lookup key hash with
         | some old => (d.lruRemove old).unref old
         | none => d).evict, e)) := by
  rw [← HandleTable.insert_snd (t := c.table) ⟨c.nextAddr, key, hash, value, charge⟩]
  rfl

/-- **After `Insert`, `usage_` is at most `capacity_`, or the list is empty.** -/
theorem usage_insert (key : κ) (hash : UInt32) (value : ν) (charge : UInt64) :
    (c.insert key hash value charge).1.usage ≤ (c.insert key hash value charge).1.capacity ∨
      (c.insert key hash value charge).1.lru = [] := by
  rw [insert_eq]
  exact usage_evict _

/-- `Erase(key, hash)`: the entry with the key leaves the table and the list, and loses the
cache's reference. -/
def erase (key : κ) (hash : UInt32) : LRUCache κ ν :=
  let (table, e) := c.table.remove key hash
  let c := { c with table }
  match e with
  | some e => (c.lruRemove e).unref e
  | none => c

@[simp] theorem lookup_snd (key : κ) (hash : UInt32) :
    (c.lookup key hash).2 = c.table.lookup key hash := by
  unfold lookup
  split <;> rename_i he <;> rw [he]

@[simp] theorem table_lookup (key : κ) (hash : UInt32) : (c.lookup key hash).1.table = c.table := by
  unfold lookup
  split <;> rfl

theorem lookup_of_some {key : κ} {hash : UInt32} {e : LRUHandle κ ν}
    (he : c.table.lookup key hash = some e) :
    c.lookup key hash =
      (({ c with refs := Function.update c.refs e.addr (c.refs e.addr + 1) }.lruRemove e).lruAppend
        e, some e) := by
  unfold lookup
  rw [he]

theorem lookup_of_none {key : κ} {hash : UInt32} (he : c.table.lookup key hash = none) :
    c.lookup key hash = (c, none) := by
  unfold lookup
  rw [he]

theorem erase_of_some {key : κ} {hash : UInt32} {e : LRUHandle κ ν}
    (he : c.table.lookup key hash = some e) :
    c.erase key hash = ({ c with table := (c.table.remove key hash).1 }.lruRemove e).unref e := by
  unfold erase
  rw [HandleTable.remove_of_some he]

theorem erase_of_none {key : κ} {hash : UInt32} (he : c.table.lookup key hash = none) :
    c.erase key hash = c := by
  unfold erase
  rw [HandleTable.remove_of_none he]

/-! ## The bookkeeping of memory -/

/-- The bookkeeping of memory against `n`, a count of references for each entry: the addresses
handed out are those of the live and of the freed entries; the live entries are those with
references, and `refs` counts them; a freed entry's `refs` is zero; and `usage_` is the sum of
the live entries' charges, modulo `2 ^ 64`. -/
structure Accounts (n : LRUHandle κ ν → ℕ) : Prop where
  addrs : ((c.heap ++ c.deleted).map LRUHandle.addr).Perm (List.range c.nextAddr)
  live : ∀ e, e ∈ c.heap ↔ 0 < n e
  refs : ∀ e ∈ c.heap, (c.refs e.addr).toNat = n e
  freed : ∀ e ∈ c.deleted, c.refs e.addr = 0
  usage : c.usage.toNat = (c.heap.map fun e ↦ e.charge.toNat).sum % 2 ^ 64

variable {c}

section Memory

omit [DecidableEq κ] [DecidableEq ν]

/-- No two entries handed out share an address. -/
theorem Accounts.addr_nodup {n : LRUHandle κ ν → ℕ} (ha : c.Accounts n) :
    ((c.heap ++ c.deleted).map LRUHandle.addr).Nodup :=
  ha.addrs.nodup_iff.2 List.nodup_range

theorem Accounts.heap_nodup {n : LRUHandle κ ν → ℕ} (ha : c.Accounts n) : c.heap.Nodup :=
  (List.Nodup.of_map _ ha.addr_nodup).sublist (List.sublist_append_left _ _)

/-- Two live entries with one address are one. -/
theorem Accounts.eq_of_addr {n : LRUHandle κ ν → ℕ} (ha : c.Accounts n) {a b : LRUHandle κ ν}
    (hab : a ∈ c.heap ++ c.deleted) (hb : b ∈ c.heap ++ c.deleted) (h : a.addr = b.addr) :
    a = b :=
  List.inj_on_of_nodup_map ha.addr_nodup hab hb h

/-- The bookkeeping reads only the memory, `refs` and `usage_`. -/
theorem Accounts.congr {c' : LRUCache κ ν} {n : LRUHandle κ ν → ℕ} (ha : c.Accounts n)
    (hheap : c'.heap = c.heap) (hdel : c'.deleted = c.deleted) (hnext : c'.nextAddr = c.nextAddr)
    (hrefs : c'.refs = c.refs) (husage : c'.usage = c.usage) : c'.Accounts n := by
  refine ⟨?_, ?_, ?_, ?_, ?_⟩
  · rw [hheap, hdel, hnext]
    exact ha.addrs
  · rw [hheap]
    exact ha.live
  · rw [hheap, hrefs]
    exact ha.refs
  · rw [hdel, hrefs]
    exact ha.freed
  · rw [husage, hheap]
    exact ha.usage

theorem Accounts.addr_lt {n : LRUHandle κ ν → ℕ} (ha : c.Accounts n) {x : LRUHandle κ ν}
    (hx : x ∈ c.heap ++ c.deleted) : x.addr < c.nextAddr :=
  List.mem_range.1 (ha.addrs.subset (List.mem_map_of_mem hx))

/-- Each entry handed out has its references in `refs`: the live ones by `Accounts.refs`, the
freed ones none. -/
theorem Accounts.refs_eq {n : LRUHandle κ ν → ℕ} (ha : c.Accounts n) {e : LRUHandle κ ν}
    (he : e ∈ c.heap ++ c.deleted) : (c.refs e.addr).toNat = n e := by
  rcases List.mem_append.1 he with he | he
  · exact ha.refs e he
  · have hout : e ∉ c.heap := fun h ↦
      List.disjoint_of_nodup_append (List.Nodup.of_map _ ha.addr_nodup) h he
    rw [ha.freed e he, Nat.eq_zero_of_not_pos (mt (ha.live e).2 hout)]
    rfl

/-- An entry handed out has been freed exactly when it has no references left. -/
theorem Accounts.mem_deleted_iff {n : LRUHandle κ ν → ℕ} (ha : c.Accounts n) {e : LRUHandle κ ν}
    (he : e ∈ c.heap ++ c.deleted) : e ∈ c.deleted ↔ n e = 0 := by
  constructor
  · intro hdel
    have hout : e ∉ c.heap := fun hheap ↦
      List.disjoint_of_nodup_append (List.Nodup.of_map _ ha.addr_nodup) hheap hdel
    exact Nat.eq_zero_of_not_pos (mt (ha.live e).2 hout)
  · intro hn
    have hout : e ∉ c.heap := fun hheap ↦ Nat.lt_irrefl 0 (hn ▸ (ha.live e).1 hheap)
    exact (List.mem_append.1 he).resolve_left hout

/-- The deleter is called once for each entry. -/
theorem Accounts.deleted_nodup {n : LRUHandle κ ν → ℕ} (ha : c.Accounts n) : c.deleted.Nodup :=
  (List.Nodup.of_map _ ha.addr_nodup).sublist (List.sublist_append_right _ _)

end Memory

/-- Subtracting a charge from `usage_` when the entry leaves the heap. -/
theorem toNat_usage_sub {u ch : UInt64} {rest : ℕ}
    (hu : u.toNat = (ch.toNat + rest) % 2 ^ 64) : (u - ch).toNat = rest % 2 ^ 64 := by
  have hch := ch.toNat_lt
  rw [UInt64.toNat_sub, hu]
  omega

theorem unref_of_eq_zero {e : LRUHandle κ ν} (h : c.refs e.addr - 1 = 0) :
    c.unref e = { c with refs := Function.update c.refs e.addr 0, usage := c.usage - e.charge,
                         heap := c.heap.erase e, deleted := c.deleted ++ [e] } := by
  unfold LRUCache.unref
  dsimp only
  rw [if_pos h, h]

theorem unref_of_ne_zero {e : LRUHandle κ ν} (h : c.refs e.addr - 1 ≠ 0) :
    c.unref e = { c with refs := Function.update c.refs e.addr (c.refs e.addr - 1) } := by
  unfold LRUCache.unref
  dsimp only
  rw [if_neg h]

/-- **`Unref` drops one reference**, and frees the entry when none is left. -/
theorem Accounts.unref {n : LRUHandle κ ν → ℕ} (ha : c.Accounts n) {e : LRUHandle κ ν}
    (hpos : 0 < n e) : (c.unref e).Accounts (Function.update n e (n e - 1)) := by
  have he : e ∈ c.heap := (ha.live e).2 hpos
  have hrefs : (c.refs e.addr - 1).toNat = n e - 1 := by
    have hone : (1 : UInt32).toNat = 1 := rfl
    have hlt := (c.refs e.addr).toNat_lt
    have heq := ha.refs e he
    rw [UInt32.toNat_sub, hone]
    omega
  have hnd := ha.heap_nodup
  -- `e` is live, so no freed entry is `e`
  have hdel : ∀ x ∈ c.deleted, x ≠ e := fun x hx hxe ↦
    List.disjoint_of_nodup_append (List.Nodup.of_map _ ha.addr_nodup) he (hxe ▸ hx)
  -- an entry other than `e` keeps its `refs`
  have hother : ∀ (r : UInt32), ∀ x ∈ c.heap ++ c.deleted, x ≠ e →
      Function.update c.refs e.addr r x.addr = c.refs x.addr := fun r x hx hxe ↦
    Function.update_of_ne (fun h ↦ hxe (ha.eq_of_addr hx (List.mem_append_left _ he) h)) _ _
  by_cases hzero : c.refs e.addr - 1 = 0
  · -- the last reference: `e` is freed
    have hlast : n e - 1 = 0 := by rw [← hrefs, hzero]; rfl
    rw [unref_of_eq_zero hzero]
    refine ⟨?_, fun x ↦ ?_, fun x hx ↦ ?_, fun x hx ↦ ?_, ?_⟩ <;> dsimp only at *
    · -- `e` moves from the heap to the freed entries
      refine List.Perm.trans (List.Perm.map _ ?_) ha.addrs
      rw [← List.append_assoc]
      refine (List.perm_append_singleton e _).trans ?_
      rw [← List.cons_append]
      exact ((List.perm_cons_erase he).symm).append_right _
    · by_cases hxe : x = e
      · rw [hxe, Function.update_self, hlast]
        exact ⟨fun h ↦ absurd h hnd.not_mem_erase, fun h ↦ absurd h (Nat.lt_irrefl 0)⟩
      · rw [Function.update_of_ne hxe, hnd.mem_erase_iff]
        exact ⟨fun h ↦ (ha.live x).1 h.2, fun h ↦ ⟨hxe, (ha.live x).2 h⟩⟩
    · have hxe : x ≠ e := fun h ↦ hnd.not_mem_erase (h ▸ hx)
      have hx' : x ∈ c.heap := List.erase_subset hx
      rw [hother 0 x (List.mem_append_left _ hx') hxe, Function.update_of_ne hxe]
      exact ha.refs x hx'
    · rcases List.mem_append.1 hx with hx | hx
      · rw [hother 0 x (List.mem_append_right _ hx) (hdel x hx)]
        exact ha.freed x hx
      · rw [List.mem_singleton.1 hx, Function.update_self]
    · apply toNat_usage_sub
      rw [ha.usage, ← List.sum_map_erase _ he]
  · -- references are left: only `refs` changes
    have hleft : n e - 1 ≠ 0 := fun h ↦ hzero (UInt32.toNat_inj.1 (by rw [hrefs, h]; rfl))
    rw [unref_of_ne_zero hzero]
    refine ⟨ha.addrs, fun x ↦ ?_, fun x hx ↦ ?_, fun x hx ↦ ?_, ha.usage⟩ <;> dsimp only at *
    · by_cases hxe : x = e
      · rw [hxe, Function.update_self]
        exact ⟨fun _ ↦ Nat.pos_of_ne_zero hleft, fun _ ↦ he⟩
      · rw [Function.update_of_ne hxe]
        exact ha.live x
    · by_cases hxe : x = e
      · rw [hxe, Function.update_self, Function.update_self]
        exact hrefs
      · rw [hother _ x (List.mem_append_left _ hx) hxe, Function.update_of_ne hxe]
        exact ha.refs x hx
    · rw [hother _ x (List.mem_append_right _ hx) (hdel x hx)]
      exact ha.freed x hx

/-- **`Lookup` adds a reference** for the handle it returns. -/
theorem Accounts.incr {n : LRUHandle κ ν → ℕ} (ha : c.Accounts n) {e : LRUHandle κ ν}
    (he : e ∈ c.heap) (hbound : n e + 1 < 2 ^ 32) :
    ({ c with refs := Function.update c.refs e.addr (c.refs e.addr + 1) } :
      LRUCache κ ν).Accounts (Function.update n e (n e + 1)) := by
  have hother : ∀ x ∈ c.heap ++ c.deleted, x ≠ e →
      Function.update c.refs e.addr (c.refs e.addr + 1) x.addr = c.refs x.addr := fun x hx hxe ↦
    Function.update_of_ne (fun h ↦ hxe (ha.eq_of_addr hx (List.mem_append_left _ he) h)) _ _
  refine ⟨ha.addrs, fun x ↦ ?_, fun x hx ↦ ?_, fun x hx ↦ ?_, ha.usage⟩ <;> dsimp only at *
  · by_cases hxe : x = e
    · rw [hxe, Function.update_self]
      exact ⟨fun _ ↦ Nat.succ_pos _, fun _ ↦ he⟩
    · rw [Function.update_of_ne hxe]
      exact ha.live x
  · by_cases hxe : x = e
    · have hone : (1 : UInt32).toNat = 1 := rfl
      rw [hxe, Function.update_self, Function.update_self, UInt32.toNat_add, ha.refs e he, hone]
      exact Nat.mod_eq_of_lt hbound
    · rw [hother x (List.mem_append_left _ hx) hxe, Function.update_of_ne hxe]
      exact ha.refs x hx
  · have hxe : x ≠ e := fun hxe ↦
      List.disjoint_of_nodup_append (List.Nodup.of_map _ ha.addr_nodup) he (hxe ▸ hx)
    rw [hother x (List.mem_append_right _ hx) hxe]
    exact ha.freed x hx

/-- **`Insert` allocates an entry** at a fresh address, with two references and its charge. -/
theorem Accounts.alloc {n : LRUHandle κ ν → ℕ} (ha : c.Accounts n) (key : κ) (hash : UInt32)
    (value : ν) (charge : UInt64) :
    ({ c with nextAddr := c.nextAddr + 1,
              heap := c.heap ++ [⟨c.nextAddr, key, hash, value, charge⟩],
              refs := Function.update c.refs c.nextAddr 2,
              usage := c.usage + charge } : LRUCache κ ν).Accounts
      (Function.update n ⟨c.nextAddr, key, hash, value, charge⟩ 2) := by
  set e : LRUHandle κ ν := ⟨c.nextAddr, key, hash, value, charge⟩ with he
  have hfresh : ∀ x ∈ c.heap ++ c.deleted, x ≠ e := fun x hx hxe ↦
    Nat.lt_irrefl _ (hxe ▸ ha.addr_lt hx)
  have hother : ∀ x ∈ c.heap ++ c.deleted,
      Function.update c.refs c.nextAddr 2 x.addr = c.refs x.addr := fun x hx ↦
    Function.update_of_ne (Nat.ne_of_lt (ha.addr_lt hx)) _ _
  refine ⟨?_, fun x ↦ ?_, fun x hx ↦ ?_, fun x hx ↦ ?_, ?_⟩ <;> dsimp only at *
  · -- the new address is the next one
    rw [List.range_succ, List.append_assoc, List.map_append]
    refine List.Perm.trans ?_ (ha.addrs.append_right [c.nextAddr])
    rw [List.map_append, List.map_append, List.append_assoc]
    refine List.Perm.append_left _ ?_
    exact List.perm_append_comm
  · by_cases hxe : x = e
    · rw [hxe, Function.update_self]
      exact ⟨fun _ ↦ Nat.two_pos, fun _ ↦ List.mem_append_right _ (List.mem_singleton_self _)⟩
    · rw [Function.update_of_ne hxe, List.mem_append, List.mem_singleton, or_iff_left hxe]
      exact ha.live x
  · rcases List.mem_append.1 hx with hx | hx
    · have hxe : x ≠ e := hfresh x (List.mem_append_left _ hx)
      rw [hother x (List.mem_append_left _ hx), Function.update_of_ne hxe]
      exact ha.refs x hx
    · rw [List.mem_singleton.1 hx, Function.update_self, Function.update_self]
      rfl
  · rw [hother x (List.mem_append_right _ hx)]
    exact ha.freed x hx
  · rw [UInt64.toNat_add, ha.usage, List.map_append, List.sum_append, List.map_singleton,
      List.sum_singleton]
    exact Nat.mod_add_mod _ _ _

/-! ## Clients -/

/-- A shard and the handles its clients hold: one entry of the list for each handle that
`Insert` or `Lookup` returned and `Release` has not taken back. -/
structure Client (κ ν : Type*) where
  /-- The shard. -/
  cache : LRUCache κ ν
  /-- The handles out. -/
  handles : List (LRUHandle κ ν)

/-- The calls of `ShardedLRUCache` on a shard. -/
inductive Call (κ ν : Type*) where
  | insert (key : κ) (value : ν) (charge : UInt64)
  | lookup (key : κ)
  | release (handle : LRUHandle κ ν)
  | erase (key : κ)

/-- A call, with the hash of its key that `ShardedLRUCache` passes along (`HashSlice`). A client
releases only a handle it holds; the handle `Insert` or `Lookup` returns joins the others. -/
def exec (hashFn : κ → UInt32) (s : Client κ ν) : Call κ ν → Option (Client κ ν)
  | .insert key value charge =>
    let (cache, e) := s.cache.insert key (hashFn key) value charge
    some ⟨cache, e :: s.handles⟩
  | .lookup key =>
    let (cache, e) := s.cache.lookup key (hashFn key)
    some ⟨cache, e.toList ++ s.handles⟩
  | .release handle =>
    if handle ∈ s.handles then some ⟨s.cache.release handle, s.handles.erase handle⟩ else none
  | .erase key => some ⟨s.cache.erase key (hashFn key), s.handles⟩

theorem exec_insert (hashFn : κ → UInt32) (s : Client κ ν) (key : κ) (value : ν)
    (charge : UInt64) :
    exec hashFn s (.insert key value charge) =
      some ⟨(s.cache.insert key (hashFn key) value charge).1,
        (s.cache.insert key (hashFn key) value charge).2 :: s.handles⟩ := rfl

theorem exec_lookup (hashFn : κ → UInt32) (s : Client κ ν) (key : κ) :
    exec hashFn s (.lookup key) =
      some ⟨(s.cache.lookup key (hashFn key)).1,
        (s.cache.lookup key (hashFn key)).2.toList ++ s.handles⟩ := rfl

theorem exec_release (hashFn : κ → UInt32) (s : Client κ ν) (handle : LRUHandle κ ν) :
    exec hashFn s (.release handle) =
      if handle ∈ s.handles then some ⟨s.cache.release handle, s.handles.erase handle⟩
      else none := rfl

/-- The references an entry has: the cache's while the entry is in the table, and one for each
handle out. -/
def Client.references (s : Client κ ν) (e : LRUHandle κ ν) : ℕ :=
  (if e ∈ s.cache.table.contents then 1 else 0) + s.handles.count e

/-- The state of a shard between calls. -/
structure Inv (hashFn : κ → UInt32) (s : Client κ ν) : Prop where
  /-- The table is well formed, -/
  table : s.cache.table.Wf
  /-- its entries are those of the list, -/
  lru : s.cache.lru.Perm s.cache.table.contents
  /-- each under the hash of its key, -/
  hash : ∀ e ∈ s.cache.table.contents, e.hash = hashFn e.key
  /-- and the memory is accounted for against the references. -/
  accounts : s.cache.Accounts s.references

theorem references_pos_of_mem_table {s : Client κ ν} {e : LRUHandle κ ν}
    (he : e ∈ s.cache.table.contents) : 0 < s.references e := by
  rw [Client.references, if_pos he]
  exact Nat.lt_of_lt_of_le Nat.one_pos (Nat.le_add_right _ _)

theorem references_pos_of_mem_handles {s : Client κ ν} {e : LRUHandle κ ν}
    (he : e ∈ s.handles) : 0 < s.references e :=
  Nat.lt_of_lt_of_le (List.count_pos_iff.2 he) (Nat.le_add_left _ _)

/-- An entry keeps its references while its membership of the table and its handles do. -/
theorem references_eq_of_iff {s s' : Client κ ν} {x : LRUHandle κ ν}
    (htab : x ∈ s'.cache.table.contents ↔ x ∈ s.cache.table.contents)
    (hcount : s'.handles.count x = s.handles.count x) : s'.references x = s.references x := by
  rw [Client.references, Client.references, hcount]
  by_cases hx : x ∈ s.cache.table.contents
  · rw [if_pos hx, if_pos (htab.2 hx)]
  · rw [if_neg hx, if_neg (mt htab.1 hx)]

/-- **The empty shard.** -/
theorem inv_new (hashFn : κ → UInt32) (capacity : UInt64) :
    Inv hashFn (⟨new capacity, []⟩ : Client κ ν) := by
  have hnil : (new capacity : LRUCache κ ν).table.contents = [] := HandleTable.new_contents
  refine ⟨HandleTable.wf_new, ?_, ?_, ?_⟩
  · rw [hnil]
    rfl
  · intro e he
    rw [hnil] at he
    cases he
  · refine ⟨List.Perm.refl _, fun e ↦ ?_, fun e he ↦ (by cases he), fun e he ↦ (by cases he),
      rfl⟩
    rw [Client.references, hnil, if_neg List.not_mem_nil, List.count_nil]
    exact ⟨fun he ↦ (by cases he), fun h ↦ absurd h (Nat.lt_irrefl 0)⟩

/-- Each key is in the table at most once. -/
theorem Inv.key_nodup {hashFn : κ → UInt32} {s : Client κ ν} (hi : Inv hashFn s) :
    (s.cache.table.contents.map LRUHandle.key).Nodup := by
  refine List.pairwise_map.2 (hi.table.unique.imp_of_mem fun ha hb hab hkey ↦ hab ⟨?_, hkey⟩)
  rw [hi.hash _ ha, hi.hash _ hb, hkey]

/-! ## Each call keeps the invariant -/

variable {hashFn : κ → UInt32}

/-- A call that leaves the table as it is and the list up to order keeps the invariant, once the
memory is accounted for. -/
theorem Inv.of_table {s s' : Client κ ν} (hi : Inv hashFn s)
    (htab : s'.cache.table = s.cache.table) (hlru : s'.cache.lru.Perm s.cache.lru)
    (ha : s'.cache.Accounts s'.references) : Inv hashFn s' := by
  refine ⟨htab ▸ hi.table, ?_, htab ▸ hi.hash, ha⟩
  rw [htab]
  exact hlru.trans hi.lru

/-- An entry that leaves the table loses the cache's reference. -/
theorem references_of_erase_table {s s' : Client κ ν} {o : LRUHandle κ ν}
    (ho : o ∈ s.cache.table.contents) (hnd : s.cache.table.contents.Nodup)
    (hperm : s'.cache.table.contents.Perm (s.cache.table.contents.erase o))
    (hh : s'.handles = s.handles) :
    s'.references = Function.update s.references o (s.references o - 1) := by
  refine Function.eq_update_iff.2 ⟨?_, fun x hx ↦ references_eq_of_iff ?_ (by rw [hh])⟩
  · have hout : o ∉ s'.cache.table.contents := fun h ↦ hnd.not_mem_erase (hperm.subset h)
    rw [Client.references, Client.references, if_neg hout, if_pos ho, hh]
    omega
  · rw [hperm.mem_iff]
    exact List.mem_erase_of_ne hx

/-- A new entry, with its handle, joins the table. -/
theorem references_of_cons_table {s s' : Client κ ν} {e : LRUHandle κ ν} (hhs : e ∉ s.handles)
    (hperm : s'.cache.table.contents.Perm (e :: s.cache.table.contents))
    (hh : s'.handles = e :: s.handles) : s'.references = Function.update s.references e 2 := by
  refine Function.eq_update_iff.2 ⟨?_, fun x hx ↦ references_eq_of_iff ?_ ?_⟩
  · rw [Client.references, if_pos (hperm.mem_iff.2 List.mem_cons_self), hh,
      List.count_cons_self, List.count_eq_zero.2 hhs]
  · rw [hperm.mem_iff, List.mem_cons]
    exact or_iff_right hx
  · rw [hh]
    exact List.count_cons_of_ne (Ne.symm hx)

/-- A new entry, with its handle, takes the place of `o` in the table, and `o` loses the
cache's reference. -/
theorem references_of_replace {s s' : Client κ ν} {e o : LRUHandle κ ν}
    (he : e ∉ s.cache.table.contents) (hhs : e ∉ s.handles) (ho : o ∈ s.cache.table.contents)
    (hnd : s.cache.table.contents.Nodup)
    (hperm : s'.cache.table.contents.Perm (e :: s.cache.table.contents.erase o))
    (hh : s'.handles = e :: s.handles) :
    s'.references = Function.update (Function.update s.references e 2) o
      (Function.update s.references e 2 o - 1) := by
  have hoe : o ≠ e := fun h ↦ he (h ▸ ho)
  have hmem : ∀ x, x ∈ s'.cache.table.contents ↔ x = e ∨ x ∈ s.cache.table.contents.erase o :=
    fun x ↦ by rw [hperm.mem_iff, List.mem_cons]
  refine Function.eq_update_iff.2 ⟨?_, fun x hxo ↦ ?_⟩
  · -- `o` keeps only its handles
    have hout : o ∉ s'.cache.table.contents := fun h ↦
      ((hmem o).1 h).elim hoe hnd.not_mem_erase
    rw [Function.update_of_ne hoe, Client.references, Client.references, if_neg hout, if_pos ho,
      hh, List.count_cons_of_ne (Ne.symm hoe)]
    omega
  · by_cases hxe : x = e
    · rw [hxe, Function.update_self, Client.references, if_pos ((hmem e).2 (.inl rfl)), hh,
        List.count_cons_self, List.count_eq_zero.2 hhs]
    · rw [Function.update_of_ne hxe]
      refine references_eq_of_iff ?_ ?_
      · rw [hmem, or_iff_right hxe]
        exact List.mem_erase_of_ne hxo
      · rw [hh]
        exact List.count_cons_of_ne (Ne.symm hxe)

/-- **`Release`** of a handle the client holds. -/
theorem Inv.release {c : LRUCache κ ν} {hs : List (LRUHandle κ ν)} (hi : Inv hashFn ⟨c, hs⟩)
    {h : LRUHandle κ ν} (hh : h ∈ hs) : Inv hashFn ⟨c.release h, hs.erase h⟩ := by
  have hcount := List.count_pos_iff.2 hh
  -- the handle goes, and the table stays
  have hrefs : Client.references ⟨c.release h, hs.erase h⟩ =
      Function.update (Client.references ⟨c, hs⟩) h (Client.references ⟨c, hs⟩ h - 1) := by
    refine Function.eq_update_iff.2 ⟨?_, fun x hx ↦ references_eq_of_iff ?_ ?_⟩
    · rw [Client.references, Client.references, List.count_erase_self]
      dsimp only
      rw [LRUCache.release, table_unref]
      omega
    · exact (congrArg (x ∈ HandleTable.contents ·) (table_unref c h)).to_iff
    · exact List.count_erase_of_ne hx
  refine hi.of_table (table_unref c h) (by rw [LRUCache.release, lru_unref]) ?_
  rw [hrefs]
  exact hi.accounts.unref (references_pos_of_mem_handles hh)

/-- **`Lookup`** that finds an entry, while its handles stay below `2 ^ 32 - 1`. -/
theorem Inv.lookup {c : LRUCache κ ν} {hs : List (LRUHandle κ ν)} (hi : Inv hashFn ⟨c, hs⟩)
    {key : κ} {hash : UInt32} {e : LRUHandle κ ν} (he : c.table.lookup key hash = some e)
    (hbound : (e :: hs).count e + 1 < 2 ^ 32) : Inv hashFn ⟨(c.lookup key hash).1, e :: hs⟩ := by
  have hmem : e ∈ c.table.contents := (hi.table.lookup_eq_some_iff.1 he).1
  have hn : Client.references ⟨c, hs⟩ e = 1 + hs.count e := by
    rw [Client.references, if_pos hmem]
  -- one handle more
  have hrefs : Client.references ⟨(c.lookup key hash).1, e :: hs⟩ =
      Function.update (Client.references ⟨c, hs⟩) e (Client.references ⟨c, hs⟩ e + 1) := by
    refine Function.eq_update_iff.2 ⟨?_, fun x hx ↦ ?_⟩
    · rw [Client.references, List.count_cons_self, hn]
      dsimp only
      rw [table_lookup, if_pos hmem]
      omega
    · refine references_eq_of_iff ?_ (List.count_cons_of_ne (Ne.symm hx))
      dsimp only
      rw [table_lookup]
  rw [List.count_cons_self] at hbound
  have hinc := hi.accounts.incr ((hi.accounts.live e).2 (references_pos_of_mem_table hmem))
    (by omega)
  refine hi.of_table (table_lookup c key hash) ?_ ?_
  · -- `e` moves to the back of the list
    rw [lookup_of_some c he]
    exact (List.perm_append_singleton e _).trans
      (List.perm_cons_erase (hi.lru.mem_iff.2 hmem)).symm
  · rw [hrefs, lookup_of_some c he]
    exact hinc.congr rfl rfl rfl rfl rfl

/-- **`Erase`** of any key, under any hash. -/
theorem Inv.erase {c : LRUCache κ ν} {hs : List (LRUHandle κ ν)} (hi : Inv hashFn ⟨c, hs⟩)
    (key : κ) (hash : UInt32) : Inv hashFn ⟨c.erase key hash, hs⟩ := by
  cases ho : c.table.lookup key hash with
  | none =>
    rw [erase_of_none c ho]
    exact hi
  | some o =>
    have hmem : o ∈ c.table.contents := (hi.table.lookup_eq_some_iff.1 ho).1
    have hperm := hi.table.remove_contents_of_some ho
    rw [erase_of_some c ho]
    refine ⟨?_, ?_, fun x hx ↦ ?_, ?_⟩
    · simp only [table_unref, table_lruRemove]
      exact hi.table.remove key hash
    · -- the entry leaves the list and the table
      simp only [table_unref, lru_unref, table_lruRemove, lru_lruRemove]
      exact (hi.lru.erase o).trans hperm.symm
    · simp only [table_unref, table_lruRemove] at hx
      exact hi.hash x (List.erase_subset (hperm.subset hx))
    · have hacc : ({ c with table := (c.table.remove key hash).1 }.lruRemove o).Accounts
          (Client.references ⟨c, hs⟩) := hi.accounts.congr rfl rfl rfl rfl rfl
      rw [references_of_erase_table (s := ⟨c, hs⟩) hmem hi.table.nodup ?_ ?_]
      · exact hacc.unref (references_pos_of_mem_table hmem)
      · rw [table_unref]
        exact hperm
      · rfl

/-- `Erase` only takes entries out of the table. -/
theorem Inv.erase_subset {c : LRUCache κ ν} {hs : List (LRUHandle κ ν)} (hi : Inv hashFn ⟨c, hs⟩)
    (key : κ) (hash : UInt32) : (c.erase key hash).table.contents ⊆ c.table.contents := by
  cases ho : c.table.lookup key hash with
  | none =>
    rw [erase_of_none c ho]
    exact List.Subset.refl _
  | some o =>
    rw [erase_of_some c ho, table_unref, table_lruRemove]
    exact fun x hx ↦ List.erase_subset ((hi.table.remove_contents_of_some ho).subset hx)

/-- A round of the eviction loop is an `Erase` of the oldest entry's key: the table holds the
entries of the list, so the entry `Remove` finds for that key is the oldest entry itself. -/
theorem Inv.evict_round {c : LRUCache κ ν} {hs : List (LRUHandle κ ν)} (hi : Inv hashFn ⟨c, hs⟩)
    {old : LRUHandle κ ν} (hold : old ∈ c.lru) :
    { c.lruRemove old with table := (c.table.remove old.key old.hash).1 }.unref old =
      c.erase old.key old.hash := by
  have ho : c.table.lookup old.key old.hash = some old :=
    hi.table.lookup_eq_some_iff.2 ⟨hi.lru.subset hold, rfl, rfl⟩
  rw [erase_of_some c ho]
  rfl

/-- **The evictions of `Insert`** keep the invariant, and only take entries out of the table. -/
theorem Inv.evict {c : LRUCache κ ν} {hs : List (LRUHandle κ ν)} (hi : Inv hashFn ⟨c, hs⟩) :
    Inv hashFn ⟨c.evict, hs⟩ ∧ c.evict.table.contents ⊆ c.table.contents := by
  fun_induction LRUCache.evict c with
  | case1 s _ _ => exact ⟨hi, List.Subset.refl _⟩
  | case2 s _ old rest hlru _ ih =>
    -- the round is an `Erase`, which keeps the invariant
    have hround := hi.evict_round (hlru ▸ List.mem_cons_self)
    rw [hround] at ih ⊢
    obtain ⟨hinv, hsub⟩ := ih (hi.erase old.key old.hash)
    exact ⟨hinv, List.Subset.trans hsub (hi.erase_subset old.key old.hash)⟩
  | case3 s _ => exact ⟨hi, List.Subset.refl _⟩

/-- The entry at the next address is new: not in memory, in the table or among the handles. -/
theorem Inv.fresh {c : LRUCache κ ν} {hs : List (LRUHandle κ ν)} (hi : Inv hashFn ⟨c, hs⟩)
    {e : LRUHandle κ ν} (he : e.addr = c.nextAddr) :
    e ∉ c.heap ∧ e ∉ c.table.contents ∧ e ∉ hs := by
  have hheap : e ∉ c.heap := fun h ↦
    Nat.lt_irrefl _ (he ▸ hi.accounts.addr_lt (List.mem_append_left _ h))
  -- whatever has a reference is in memory
  refine ⟨hheap, fun h ↦ hheap ?_, fun h ↦ hheap ?_⟩
  · exact (hi.accounts.live e).2 (references_pos_of_mem_table h)
  · exact (hi.accounts.live e).2 (references_pos_of_mem_handles h)

/-- Under the invariant, `Lookup` of a key under its hash finds each entry of the key. -/
theorem Inv.lookup_of_key {c : LRUCache κ ν} {hs : List (LRUHandle κ ν)} (hi : Inv hashFn ⟨c, hs⟩)
    {key : κ} {x : LRUHandle κ ν} (hx : x ∈ c.table.contents) (hkey : x.key = key) :
    c.table.lookup key (hashFn key) = some x :=
  hi.table.lookup_eq_some_iff.2 ⟨hx, hkey ▸ hi.hash x hx, hkey⟩

theorem Inv.key_ne_of_lookup_none {c : LRUCache κ ν} {hs : List (LRUHandle κ ν)}
    (hi : Inv hashFn ⟨c, hs⟩) {key : κ} (ho : c.table.lookup key (hashFn key) = none)
    {x : LRUHandle κ ν} (hx : x ∈ c.table.contents) : x.key ≠ key := fun hkey ↦ by
  rw [hi.lookup_of_key hx hkey] at ho
  cases ho

/-- Without the entry `Lookup` finds for a key, the table holds the entries of other keys. -/
theorem Inv.mem_erase_iff {c : LRUCache κ ν} {hs : List (LRUHandle κ ν)} (hi : Inv hashFn ⟨c, hs⟩)
    {key : κ} {o : LRUHandle κ ν} (ho : c.table.lookup key (hashFn key) = some o)
    {x : LRUHandle κ ν} : x ∈ c.table.contents.erase o ↔ x ∈ c.table.contents ∧ x.key ≠ key := by
  have hok : o.key = key := (hi.table.lookup_eq_some_iff.1 ho).2.2
  constructor
  · intro hx
    have hx' := List.erase_subset hx
    refine ⟨hx', fun hkey ↦ ?_⟩
    have hxo : x = o := Option.some_inj.1 ((hi.lookup_of_key hx' hkey).symm.trans ho)
    exact hi.table.nodup.not_mem_erase (hxo ▸ hx)
  · rintro ⟨hx, hkey⟩
    have hxo : x ≠ o := fun h ↦ hkey (by rw [h, hok])
    exact List.mem_erase_of_ne hxo |>.2 hx

/-- **`Insert` before its evictions**, with the hash of its key: a state of the invariant whose
table holds the new entry and the entries of the other keys. -/
theorem Inv.insert_spec {c : LRUCache κ ν} {hs : List (LRUHandle κ ν)} (hi : Inv hashFn ⟨c, hs⟩)
    (key : κ) (value : ν) (charge : UInt64) :
    ∃ d : LRUCache κ ν, (c.insert key (hashFn key) value charge).1 = d.evict ∧
      Inv hashFn ⟨d, (c.insert key (hashFn key) value charge).2 :: hs⟩ ∧
      ∀ x, x ∈ d.table.contents ↔
        x = (c.insert key (hashFn key) value charge).2 ∨ (x ∈ c.table.contents ∧ x.key ≠ key) := by
  rw [insert_eq]
  dsimp only
  obtain ⟨-, htab, hhs⟩ := hi.fresh (e := ⟨c.nextAddr, key, hashFn key, value, charge⟩) rfl
  have hacc := hi.accounts.alloc key (hashFn key) value charge
  refine ⟨_, rfl, ?_⟩
  cases ho : c.table.lookup key (hashFn key) with
  | none =>
    -- a new key: the entry joins the table
    have hperm := hi.table.insert_contents_of_none (e := ⟨c.nextAddr, key, hashFn key, value,
      charge⟩) ho
    refine ⟨⟨hi.table.insert _, ?_, fun x hx ↦ ?_, ?_⟩, fun x ↦ ?_⟩
    · exact (List.perm_append_singleton _ _).trans ((hi.lru.cons _).trans hperm.symm)
    · rcases List.mem_cons.1 (hperm.subset hx) with rfl | hx
      · rfl
      · exact hi.hash x hx
    · rw [references_of_cons_table (s := ⟨c, hs⟩) hhs ?_ rfl]
      · exact hacc.congr rfl rfl rfl rfl rfl
      · exact hperm
    · rw [hperm.mem_iff, List.mem_cons]
      exact or_congr Iff.rfl ⟨fun hx ↦ ⟨hx, hi.key_ne_of_lookup_none ho hx⟩, And.left⟩
  | some o =>
    -- the entry takes the place of `o`, which leaves the list and loses the cache's reference
    have hperm := hi.table.insert_contents_of_some (e := ⟨c.nextAddr, key, hashFn key, value,
      charge⟩) ho
    have homem : o ∈ c.table.contents := (hi.table.lookup_eq_some_iff.1 ho).1
    dsimp only
    refine ⟨⟨?_, ?_, fun x hx ↦ ?_, ?_⟩, fun x ↦ ?_⟩
    · rw [table_unref, table_lruRemove]
      exact hi.table.insert _
    · rw [table_unref, table_lruRemove, lru_unref, lru_lruRemove,
        List.erase_append_left _ (hi.lru.mem_iff.2 homem)]
      exact (List.perm_append_singleton _ _).trans (((hi.lru.erase o).cons _).trans hperm.symm)
    · rw [table_unref, table_lruRemove] at hx
      rcases List.mem_cons.1 (hperm.subset hx) with rfl | hx
      · rfl
      · exact hi.hash x (List.erase_subset hx)
    · rw [references_of_replace (s := ⟨c, hs⟩) htab hhs homem hi.table.nodup ?_ rfl]
      · have hne : o ≠ ⟨c.nextAddr, key, hashFn key, value, charge⟩ := fun h ↦ htab (h ▸ homem)
        have hpos : 0 < Function.update (Client.references ⟨c, hs⟩)
            ⟨c.nextAddr, key, hashFn key, value, charge⟩ 2 o := by
          rw [Function.update_of_ne hne]
          exact references_pos_of_mem_table homem
        refine Accounts.unref ?_ hpos
        exact hacc.congr rfl rfl rfl rfl rfl
      · rw [table_unref, table_lruRemove]
        exact hperm
    · rw [table_unref, table_lruRemove, hperm.mem_iff, List.mem_cons, hi.mem_erase_iff ho]

/-- **`Insert`**, with the hash of its key. -/
theorem Inv.insert {c : LRUCache κ ν} {hs : List (LRUHandle κ ν)} (hi : Inv hashFn ⟨c, hs⟩)
    (key : κ) (value : ν) (charge : UInt64) :
    Inv hashFn ⟨(c.insert key (hashFn key) value charge).1,
      (c.insert key (hashFn key) value charge).2 :: hs⟩ := by
  obtain ⟨d, hd, hinv, -⟩ := hi.insert_spec key value charge
  rw [hd]
  exact hinv.evict.1

/-- `Erase` of a key under its hash leaves the entries of the other keys. -/
theorem Inv.erase_mem_iff {c : LRUCache κ ν} {hs : List (LRUHandle κ ν)}
    (hi : Inv hashFn ⟨c, hs⟩) (key : κ) {x : LRUHandle κ ν} :
    x ∈ (c.erase key (hashFn key)).table.contents ↔ x ∈ c.table.contents ∧ x.key ≠ key := by
  cases ho : c.table.lookup key (hashFn key) with
  | none =>
    rw [erase_of_none c ho]
    exact ⟨fun hx ↦ ⟨hx, hi.key_ne_of_lookup_none ho hx⟩, And.left⟩
  | some o =>
    rw [erase_of_some c ho, table_unref, table_lruRemove]
    exact (hi.table.remove_contents_of_some ho).mem_iff.trans (hi.mem_erase_iff ho)

/-- No entry has `2 ^ 32 - 1` handles out: with the cache's reference, its `refs` would wrap. -/
def Bounded (s : Client κ ν) : Prop :=
  ∀ e, s.handles.count e + 1 < 2 ^ 32

/-- **Every call keeps the invariant**, into a state where no entry has `2 ^ 32 - 1` handles
out. -/
theorem exec_inv {s s' : Client κ ν} (hi : Inv hashFn s) {call : Call κ ν}
    (h : exec hashFn s call = some s') (hb : Bounded s') : Inv hashFn s' := by
  obtain ⟨c, hs⟩ := s
  cases call with
  | insert key value charge =>
    rw [exec_insert, Option.some_inj] at h
    rw [← h]
    exact hi.insert key value charge
  | lookup key =>
    rw [exec_lookup, Option.some_inj] at h
    subst h
    cases he : c.table.lookup key (hashFn key) with
    | none =>
      rw [lookup_of_none c he]
      exact hi
    | some e =>
      have hbe := hb e
      dsimp only at hbe ⊢
      rw [lookup_snd, he] at hbe ⊢
      exact hi.lookup he hbe
  | release handle =>
    rw [exec_release] at h
    split at h
    · rename_i hh
      rw [← Option.some_inj.1 h]
      exact hi.release hh
    · cases h
  | erase key =>
    rw [← Option.some_inj.1 h]
    exact hi.erase key (hashFn key)

/-! ## The map a shard stands for -/

/-- What `Lookup` of a key finds, under the hash of the key, as a map from keys to values. -/
def get (hashFn : κ → UInt32) (c : LRUCache κ ν) (key : κ) : Option ν :=
  (c.table.lookup key (hashFn key)).map LRUHandle.value

/-- A call on the map a shard stands for: `Insert` maps the key to the value and `Erase` removes
the key. -/
def Call.apply : Call κ ν → (κ → Option ν) → κ → Option ν
  | .insert key value _, m => Function.update m key (some value)
  | .lookup _, m => m
  | .release _, m => m
  | .erase key, m => Function.update m key none

/-- How what a lookup finds may change in a call: as the call changes the map, except that an
`Insert` may drop entries as well, its evictions. -/
def MapStep : Call κ ν → (κ → Option ν) → (κ → Option ν) → Prop
  | .insert key value charge, m, m' =>
    ∀ k, m' k = (Call.insert key value charge).apply m k ∨ m' k = none
  | .lookup key, m, m' => m' = (Call.lookup key).apply m
  | .release handle, m, m' => m' = (Call.release handle).apply m
  | .erase key, m, m' => m' = (Call.erase key).apply m

/-- The map after a run of calls, were nothing evicted: the latest `Insert` of each key not
erased since. -/
def latest (calls : List (Call κ ν)) : κ → Option ν :=
  calls.foldl (fun m call ↦ call.apply m) fun _ ↦ none

theorem lookup_map_value (key : κ) :
    (c.lookup key (hashFn key)).2.map LRUHandle.value = get hashFn c key := by
  rw [lookup_snd, get]

theorem Inv.get_eq_some_iff {s : Client κ ν} (hi : Inv hashFn s) {key : κ} {v : ν} :
    get hashFn s.cache key = some v ↔ ∃ e ∈ s.cache.table.contents, e.key = key ∧ e.value = v := by
  rw [get, Option.map_eq_some_iff]
  constructor
  · rintro ⟨e, he, rfl⟩
    obtain ⟨hmem, -, hkey⟩ := hi.table.lookup_eq_some_iff.1 he
    exact ⟨e, hmem, hkey, rfl⟩
  · rintro ⟨e, hmem, rfl, rfl⟩
    exact ⟨e, hi.table.lookup_eq_some_iff.2 ⟨hmem, hi.hash e hmem, rfl⟩, rfl⟩

/-- Every entry the cache still holds is what a lookup of its key finds. -/
theorem Inv.get_of_mem_lru {s : Client κ ν} (hi : Inv hashFn s) {e : LRUHandle κ ν}
    (he : e ∈ s.cache.lru) : get hashFn s.cache e.key = some e.value :=
  hi.get_eq_some_iff.2 ⟨e, hi.lru.subset he, rfl, rfl⟩

/-- Two tables with the same entries of a key find the same value for it. -/
theorem Inv.get_congr {s s' : Client κ ν} (hi : Inv hashFn s) (hi' : Inv hashFn s') {key : κ}
    (h : ∀ e : LRUHandle κ ν, e.key = key →
      (e ∈ s'.cache.table.contents ↔ e ∈ s.cache.table.contents)) :
    get hashFn s'.cache key = get hashFn s.cache key := by
  refine Option.ext fun v ↦ ?_
  rw [hi'.get_eq_some_iff, hi.get_eq_some_iff]
  constructor
  · rintro ⟨e, he, hkey, hv⟩
    exact ⟨e, (h e hkey).1 he, hkey, hv⟩
  · rintro ⟨e, he, hkey, hv⟩
    exact ⟨e, (h e hkey).2 he, hkey, hv⟩

/-- A table with fewer entries finds a key's value or nothing. -/
theorem Inv.get_of_subset {s s' : Client κ ν} (hi : Inv hashFn s) (hi' : Inv hashFn s')
    (hsub : s'.cache.table.contents ⊆ s.cache.table.contents) (key : κ) :
    get hashFn s'.cache key = get hashFn s.cache key ∨ get hashFn s'.cache key = none := by
  cases hv : get hashFn s'.cache key with
  | none => exact .inr rfl
  | some v =>
    obtain ⟨e, he, hkey, hval⟩ := hi'.get_eq_some_iff.1 hv
    exact .inl (hi.get_eq_some_iff.2 ⟨e, hsub he, hkey, hval⟩).symm

omit [DecidableEq ν] in
theorem get_of_table {c c' : LRUCache κ ν} (h : c'.table = c.table) :
    get hashFn c' = get hashFn c := by
  funext key
  rw [get, get, h]

/-- **`Erase`** removes the key from the map. -/
theorem Inv.get_erase {c : LRUCache κ ν} {hs : List (LRUHandle κ ν)} (hi : Inv hashFn ⟨c, hs⟩)
    (key : κ) :
    get hashFn (c.erase key (hashFn key)) = Function.update (get hashFn c) key none := by
  have hi' := hi.erase key (hashFn key)
  refine Function.eq_update_iff.2 ⟨?_, fun x hx ↦ ?_⟩
  · refine Option.eq_none_iff_forall_ne_some.2 fun v hv ↦ ?_
    obtain ⟨e, he, hkey, -⟩ := hi'.get_eq_some_iff.1 hv
    exact ((hi.erase_mem_iff key).1 he).2 hkey
  · refine hi.get_congr hi' fun e hkey ↦ ?_
    rw [hi.erase_mem_iff key]
    exact and_iff_left (hkey ▸ hx)

/-- **`Insert`** maps the key to the value, and its evictions may drop entries. -/
theorem Inv.get_insert {c : LRUCache κ ν} {hs : List (LRUHandle κ ν)} (hi : Inv hashFn ⟨c, hs⟩)
    (key : κ) (value : ν) (charge : UInt64) (k : κ) :
    get hashFn (c.insert key (hashFn key) value charge).1 k =
        Function.update (get hashFn c) key (some value) k ∨
      get hashFn (c.insert key (hashFn key) value charge).1 k = none := by
  obtain ⟨d, hd, hinv, hmem⟩ := hi.insert_spec key value charge
  have he : (c.insert key (hashFn key) value charge).2 =
      ⟨c.nextAddr, key, hashFn key, value, charge⟩ := by
    rw [insert_eq]
  -- what the table holds before the evictions
  have hget : get hashFn d = Function.update (get hashFn c) key (some value) := by
    refine Function.eq_update_iff.2 ⟨?_, fun x hx ↦ ?_⟩
    · exact hinv.get_eq_some_iff.2 ⟨_, (hmem _).2 (.inl rfl), by rw [he], by rw [he]⟩
    · refine hi.get_congr hinv fun e hkey ↦ ?_
      rw [hmem, he]
      have hne : e ≠ ⟨c.nextAddr, key, hashFn key, value, charge⟩ := fun h ↦ hx (by rw [← hkey, h])
      rw [or_iff_right hne, and_iff_left (hkey ▸ hx)]
  obtain ⟨hinv', hsub⟩ := hinv.evict
  rw [hd, ← hget]
  exact hinv.get_of_subset hinv' hsub k

/-- **What a call does to the map**, from a state of the invariant. -/
theorem exec_mapStep {s s' : Client κ ν} (hi : Inv hashFn s) {call : Call κ ν}
    (h : exec hashFn s call = some s') :
    MapStep call (get hashFn s.cache) (get hashFn s'.cache) := by
  obtain ⟨c, hs⟩ := s
  cases call with
  | insert key value charge =>
    rw [exec_insert, Option.some_inj] at h
    subst h
    exact hi.get_insert key value charge
  | lookup key =>
    rw [exec_lookup, Option.some_inj] at h
    subst h
    exact get_of_table (table_lookup c key (hashFn key))
  | release handle =>
    rw [exec_release] at h
    split at h
    · rw [← Option.some_inj.1 h]
      exact get_of_table (table_unref c handle)
    · cases h
  | erase key =>
    rw [← Option.some_inj.1 h]
    exact hi.get_erase key

omit [DecidableEq ν] in
/-- What a map finds, a map holding at least as much finds after a call as well. -/
theorem Call.apply_mono (call : Call κ ν) {m a : κ → Option ν}
    (hsub : ∀ k v, m k = some v → a k = some v) :
    ∀ k v, call.apply m k = some v → call.apply a k = some v := by
  intro k v hk
  cases call with
  | insert key value charge =>
    by_cases hkey : k = key
    · rw [hkey, Call.apply, Function.update_self] at hk ⊢
      exact hk
    · rw [Call.apply, Function.update_of_ne hkey] at hk ⊢
      exact hsub k v hk
  | lookup key => exact hsub k v hk
  | release handle => exact hsub k v hk
  | erase key =>
    by_cases hkey : k = key
    · rw [hkey, Call.apply, Function.update_self] at hk
      cases hk
    · rw [Call.apply, Function.update_of_ne hkey] at hk ⊢
      exact hsub k v hk

omit [DecidableEq ν] in
/-- What a lookup finds after a call, the call's map holds. -/
theorem MapStep.le_apply {call : Call κ ν} {m m' : κ → Option ν} (h : MapStep call m m') :
    ∀ k v, m' k = some v → call.apply m k = some v := by
  intro k v hk
  cases call with
  | insert key value charge =>
    rcases h k with h | h
    · rw [← h]
      exact hk
    · rw [h] at hk
      cases hk
  | lookup key => rw [← h]; exact hk
  | release handle => rw [← h]; exact hk
  | erase key => rw [← h]; exact hk

/-- **Along every run that stays within the bound**, from a state of the invariant whose lookups
a map `m` agrees with: the invariant holds at the end, and what a lookup finds there, the map the
calls lead `m` to holds. -/
theorem run_inv {s s' : Client κ ν} {m : κ → Option ν} (calls : List (Call κ ν))
    (hi : Inv hashFn s) (hm : ∀ k v, get hashFn s.cache k = some v → m k = some v)
    (hb : Machine.Stays (exec hashFn) Bounded s calls)
    (hrun : Machine.run (exec hashFn) s calls = some s') :
    Inv hashFn s' ∧ ∀ k v, get hashFn s'.cache k = some v →
      calls.foldl (fun m call ↦ call.apply m) m k = some v := by
  refine Machine.run_simulation_stays (Inv hashFn) Bounded
    (fun s m ↦ ∀ k v, get hashFn s.cache k = some v → m k = some v) (fun m call ↦ call.apply m)
    ?_ calls hi hm hb hrun
  intro s call s' m hi hm h hb
  exact ⟨exec_inv hi h hb, call.apply_mono hm |> fun happly k v hv ↦
    happly k v ((exec_mapStep hi h).le_apply k v hv)⟩

theorem bounded_of_length {s : Client κ ν} (h : s.handles.length + 1 < 2 ^ 32) : Bounded s :=
  fun _ ↦ Nat.lt_of_le_of_lt (Nat.succ_le_succ List.count_le_length) h

/-- A call returns at most one handle. -/
theorem length_handles_exec {s s' : Client κ ν} {call : Call κ ν}
    (h : exec hashFn s call = some s') : s'.handles.length ≤ s.handles.length + 1 := by
  cases call with
  | insert key value charge =>
    rw [exec_insert, Option.some_inj] at h
    rw [← h]
    exact Nat.le_refl _
  | lookup key =>
    rw [exec_lookup, Option.some_inj] at h
    rw [← h, List.length_append, Nat.add_comm]
    exact Nat.add_le_add_left Option.length_toList_le _
  | release handle =>
    rw [exec_release] at h
    split at h
    · rw [← Option.some_inj.1 h]
      exact Nat.le_succ_of_le List.length_erase_le
    · cases h
  | erase key =>
    rw [← Option.some_inj.1 h]
    exact Nat.le_succ _

/-- **Runs of fewer than `2 ^ 32 - 1` calls** from a shard without handles out stay within the
bound. -/
theorem stays_bounded :
    ∀ (calls : List (Call κ ν)) (s : Client κ ν), s.handles.length + calls.length + 1 < 2 ^ 32 →
      Machine.Stays (exec hashFn) Bounded s calls
  | [], _, _ => trivial
  | call :: calls, s, h => by
    intro s' hs'
    have hlen := length_handles_exec hs'
    rw [List.length_cons] at h
    exact ⟨bounded_of_length (by omega), stays_bounded calls s' (by omega)⟩

/-- A shard of capacity 10 after one `Insert`, all keys under hash 0, its handle out. -/
def oneInsert : Client ℕ ℕ :=
  ⟨((new 10 : LRUCache ℕ ℕ).insert 1 0 5 1).1, [((new 10 : LRUCache ℕ ℕ).insert 1 0 5 1).2]⟩

/-- Two `Insert`s that wrap `usage_`, all keys under hash 0: the first, of charge `2 ^ 64 - 1`,
is evicted at once, but its handle stays out and its charge in `usage_`; the second, of charge
2, takes `usage_` past `2 ^ 64`. -/
def wrapped : Client ℕ ℕ :=
  let first := (new 10 : LRUCache ℕ ℕ).insert 1 0 0 (2 ^ 64 - 1)
  let second := first.1.insert 2 0 0 2
  ⟨second.1, [second.2, first.2]⟩

/-- **`usage_` wraps**: after the two `Insert`s, `usage_` is 1, while the entries not freed
are charged `2 ^ 64 + 1`. -/
theorem usage_wraps :
    Machine.run (exec fun _ ↦ 0) ⟨new 10, []⟩ [.insert 1 0 (2 ^ 64 - 1), .insert 2 0 2] =
        some wrapped ∧
      wrapped.cache.usage.toNat = 1 ∧
      (wrapped.cache.heap.map fun e ↦ e.charge.toNat).sum = 2 ^ 64 + 1 :=
  ⟨rfl, by decide +kernel, by decide +kernel⟩

/-- A run of `Lookup`s of a key in the table: each hands the entry out once more and adds one to
its `refs`, modulo `2 ^ 32`. The induction is on the number of lookups. -/
theorem run_lookups {s : Client κ ν} {key : κ} {e : LRUHandle κ ν}
    (he : s.cache.table.lookup key (hashFn key) = some e) (n : ℕ) :
    ∃ s', Machine.run (exec hashFn) s (List.replicate n (.lookup key)) = some s' ∧
      s'.cache.table = s.cache.table ∧
      (s'.cache.refs e.addr).toNat = ((s.cache.refs e.addr).toNat + n) % 2 ^ 32 ∧
      s'.handles = List.replicate n e ++ s.handles := by
  induction n generalizing s with
  | zero =>
    refine ⟨s, rfl, rfl, ?_, rfl⟩
    rw [Nat.add_zero, Nat.mod_eq_of_lt (UInt32.toNat_lt _)]
  | succ n ih =>
    -- one lookup: a reference more, the entry handed out, the table as it was
    let s₁ : Client κ ν :=
      ⟨(({ s.cache with refs := Function.update s.cache.refs e.addr (s.cache.refs e.addr + 1) }
        |>.lruRemove e).lruAppend e), e :: s.handles⟩
    have hs₁ : exec hashFn s (.lookup key) = some s₁ := by
      rw [exec_lookup, lookup, he]
      rfl
    obtain ⟨s', hrun, htable, hrefs, hhandles⟩ := ih (s := s₁) he
    have hrefs₁ : (s₁.cache.refs e.addr).toNat = ((s.cache.refs e.addr).toNat + 1) % 2 ^ 32 := by
      show (Function.update s.cache.refs e.addr (s.cache.refs e.addr + 1) e.addr).toNat = _
      rw [Function.update_self, UInt32.toNat_add]
      rfl
    refine ⟨s', ?_, htable, ?_, ?_⟩
    · rw [List.replicate_succ, Machine.run_cons, hs₁, Option.bind_some, hrun]
    · rw [hrefs, hrefs₁, Nat.mod_add_mod, Nat.add_assoc, Nat.add_comm 1 n]
    · rw [hhandles, List.replicate_succ', List.append_assoc]
      rfl

/-- The entry of `oneInsert`, referenced by the cache and by its one handle. -/
def oneEntry : LRUHandle ℕ ℕ :=
  ((new 10 : LRUCache ℕ ℕ).insert 1 0 5 1).2

/-- **`refs` wraps**: after the `Insert` of `oneInsert`, `2 ^ 32 - 2` `Lookup`s of its key leave
the entry's `refs` at `0`, while the cache and `2 ^ 32 - 1` handles reference it. -/
theorem refs_wraps :
    ∃ s, Machine.run (exec fun _ ↦ 0) ⟨new 10, []⟩
        (.insert 1 5 1 :: List.replicate (2 ^ 32 - 2) (.lookup 1)) = some s ∧
      (s.cache.refs oneEntry.addr).toNat = 0 ∧ s.references oneEntry = 2 ^ 32 := by
  have hinsert : exec (fun _ ↦ 0) ⟨new 10, []⟩ (.insert 1 5 1) = some oneInsert := rfl
  have he : oneInsert.cache.table.lookup 1 0 = some oneEntry := by decide +kernel
  have hrefs : (oneInsert.cache.refs oneEntry.addr).toNat = 2 := by decide +kernel
  have hmem : oneEntry ∈ oneInsert.cache.table.contents := by decide +kernel
  obtain ⟨s, hrun, htable, hrefs', hhandles⟩ :=
    @run_lookups ℕ ℕ _ _ (fun _ ↦ 0) _ _ _ he (2 ^ 32 - 2)
  refine ⟨s, by rw [Machine.run_cons, hinsert, Option.bind_some, hrun], ?_, ?_⟩
  · rw [hrefs', hrefs]
    norm_num
  · have hone : oneInsert.handles = [oneEntry] := rfl
    rw [Client.references, htable, if_pos hmem, hhandles, hone, List.count_append,
      List.count_replicate_self, List.count_singleton_self]
    norm_num

end LRUCache

end PebblesDB
