/-
# The file cache

`FileCache` keeps a map of entries and, beside it, the order in which they were last used, a
count of their bytes and a sequence counter.  Four pieces of state are updated one by one.

`Rep` ties them to one list of entries in order of use, with room for the entry that an
operation has taken out of the order and not yet put back.  Each small update of the code is
one lemma about `Rep`; an operation is a chain of them.
-/
import Std.Data.HashMap.Lemmas
import Std.Data.TreeMap.Lemmas
import Mathlib.Data.List.Sort
import RemoteClient.Encoding
import RemoteClient.Lib.Exec
import RemoteClient.Lib.Lru

namespace RemoteClient

open Exec

/-! ## The state -/

/-- A file as the cache hands it out.  Its encodings are shared between all copies of one
stored file; the number is the identity of the place they share. -/
structure CachedFile where
  data : List Byte
  etag : Str
  encodings : ℕ
deriving DecidableEq

/-- A cached file with its bytes so far, data and encodings, and the time of its last use. -/
structure Entry where
  data : List Byte
  etag : Str
  encodings : ℕ
  size : ℕ
  seq : ℕ
deriving DecidableEq

/-- The file of an entry. -/
def Entry.file (entry : Entry) : CachedFile := ⟨entry.data, entry.etag, entry.encodings⟩

/-- What the lock of the cache guards.  The order is keyed by the time of the last use, the
oldest first.  The counters are natural numbers: they stay far below the end of a word. -/
structure Inner where
  map : Std.HashMap Str Entry
  order : Std.TreeMap ℕ Str
  currentMemory : ℕ
  nextSeq : ℕ

structure FileCache where
  inner : Inner
  maxSize : ℕ
  maxMemoryBytes : ℕ
  hits : BitVec 64
  misses : BitVec 64

/-- The digits of `compute_etag`. -/
def hexDigit (n : Fin 16) : Char :=
  (#v['0', '1', '2', '3', '4', '5', '6', '7', '8', '9', 'a', 'b', 'c', 'd', 'e', 'f'] :
    Vector Char 16).get n

/-- A byte as two hex digits. -/
def hexByte (byte : Byte) : Str :=
  [hexDigit ⟨byte.toNat / 16, by omega⟩, hexDigit ⟨byte.toNat % 16, by omega⟩]

/-- First 16 hex characters of the MD5 of the content. -/
def computeEtag (md5 : List Byte → Vector Byte 16) (data : List Byte) : Str :=
  ((md5 data).toList.take 8).flatMap hexByte

/-! ## Eviction -/

namespace Inner

def empty : Inner := ⟨∅, ∅, 0, 0⟩

/-- Remove the entry that was used least recently. -/
def evictOldest (inner : Inner) : Exec Empty Inner :=
  match inner.order.toList.head? with
  | none => .ok inner
  | some (oldestSeq, oldestKey) =>
    let inner := { inner with order := inner.order.erase oldestSeq }
    match inner.map[oldestKey]? with
    | none => .ok inner
    | some removed => do
      let currentMemory ← sub inner.currentMemory removed.size
      return { inner with map := inner.map.erase oldestKey, currentMemory := currentMemory }

/-- Evict while `cond` holds.  With the order empty an eviction changes nothing, so that a
condition that still holds then holds forever. -/
def evictTurns (cond : Inner → Bool) : ℕ → Inner → Exec Empty Inner
  | 0, inner => if cond inner then spin else .ok inner
  | turns + 1, inner =>
    if cond inner then do
      let inner ← evictOldest inner
      evictTurns cond turns inner
    else .ok inner

/-- `while cond { evict_oldest }`. -/
def evictWhile (cond : Inner → Bool) (inner : Inner) : Exec Empty Inner :=
  evictTurns cond inner.order.size inner

/-- Remove the entry of a key, if there is one. -/
def remove (inner : Inner) (key : Str) : Exec Empty Inner :=
  match inner.map[key]? with
  | none => .ok inner
  | some old => do
    let currentMemory ← sub inner.currentMemory old.size
    return { inner with
      map := inner.map.erase key
      currentMemory := currentMemory
      order := inner.order.erase old.seq }

end Inner

/-! ## The operations -/

namespace FileCache

/-- A cache with nothing in it. -/
def withBudget (maxSize maxMemoryBytes : ℕ) : FileCache :=
  ⟨Inner.empty, maxSize, maxMemoryBytes, 0, 0⟩

/-- The budget is a product of `usize`: it wraps from 2^44 MB on, where a debug build panics. -/
def new (maxSize maxMemoryMb : ℕ) : FileCache :=
  withBudget maxSize (maxMemoryMb * 1024 * 1024 % 2 ^ 64)

/-- True when a file of `len` bytes is one the cache keeps: nothing over a tenth of its
budget. -/
def keeps (cache : FileCache) (len : ℕ) : Bool :=
  cache.maxSize ≠ 0 ∧ 10 * len ≤ cache.maxMemoryBytes

def get (cache : FileCache) (key : Str) : Option CachedFile × FileCache :=
  let seq := cache.inner.nextSeq
  match cache.inner.map[key]? with
  | none => (none, { cache with misses := cache.misses + 1 })
  | some entry =>
    let inner := { cache.inner with
      map := cache.inner.map.insert key { entry with seq := seq }
      nextSeq := seq + 1
      order := (cache.inner.order.erase entry.seq).insert seq key }
    (some entry.file, { cache with inner := inner, hits := cache.hits + 1 })

/-- Evict until `incoming` more bytes fit in the memory budget. -/
def evictFor (cache : FileCache) (inner : Inner) (incoming : ℕ) : Exec Empty Inner :=
  inner.evictWhile fun inner =>
    decide (cache.maxMemoryBytes < inner.currentMemory + incoming) && !inner.map.isEmpty

/-- Store `data` and return it with its ETag.  `encodings` is the identity of the place that
is allocated for its encodings. -/
def insert (md5 : List Byte → Vector Byte 16) (cache : FileCache) (key : Str) (data : List Byte)
    (encodings : ℕ) : Exec Empty (CachedFile × FileCache) :=
  let etag := computeEtag md5 data
  let size := data.length
  let file := ⟨data, etag, encodings⟩
  if cache.keeps size = false then .ok (file, cache)
  else do
    let inner ← cache.inner.remove key
    let inner ← inner.evictWhile fun inner =>
      decide (cache.maxSize ≤ inner.map.size) && !inner.map.isEmpty
    let inner ← cache.evictFor inner size
    let seq := inner.nextSeq
    let inner := { inner with
      nextSeq := seq + 1
      order := inner.order.insert seq key
      map := inner.map.insert key ⟨data, etag, encodings, size, seq⟩
      currentMemory := inner.currentMemory + size }
    return (file, { cache with inner := inner })

/-- Make room for an entry that grows by `bytes`. -/
def growEntry (cache : FileCache) (key : Str) (entry : Entry) (bytes : ℕ) : Exec Empty FileCache := do
  let inner := { cache.inner with
    map := cache.inner.map.insert key { entry with size := entry.size + bytes }
    order := cache.inner.order.erase entry.seq
    currentMemory := cache.inner.currentMemory + bytes }
  let inner ← inner.evictWhile fun inner =>
    decide (cache.maxMemoryBytes < inner.currentMemory) && !inner.order.isEmpty
  return { cache with inner := { inner with order := inner.order.insert entry.seq key } }

/-- Count `bytes` of a newly made encoding of `file` against the budget, if `file` is still
the entry cached under `key`. -/
def addEncoding (cache : FileCache) (key : Str) (file : CachedFile) (bytes : ℕ) :
    Exec Empty FileCache :=
  match cache.inner.map[key]? with
  | some entry =>
    if entry.encodings = file.encodings then cache.growEntry key entry bytes else .ok cache
  | none => .ok cache

end FileCache

/-! ## One list of entries -/

/-- Entries with their keys. -/
abbrev Slots : Type := List (Str × Entry)

/-- The state describes the entries `l`, in order of use, and `held`, which are out of the
order. -/
structure Inner.Rep (inner : Inner) (l held : Slots) : Prop where
  sorted : l.Pairwise fun x y => x.2.seq < y.2.seq
  nodup : ((held ++ l).map Prod.fst).Nodup
  map_iff : ∀ k e, inner.map[k]? = some e ↔ (k, e) ∈ held ++ l
  order_iff : ∀ s k, inner.order[s]? = some k ↔ ∃ e, (k, e) ∈ l ∧ e.seq = s
  seq_lt : ∀ x ∈ held ++ l, x.2.seq < inner.nextSeq
  memory : inner.currentMemory = ((held ++ l).map fun x => x.2.size).sum

namespace Inner

/-! ## Reading the state off the list -/

namespace Rep

variable {inner : Inner} {l held : Slots}

lemma map_perm (h : Rep inner l held) : inner.map.toList.Perm (held ++ l) := by
  have hkeys := h.nodup
  refine (List.perm_ext_iff_of_nodup ?_ (List.Nodup.of_map Prod.fst hkeys)).mpr ?_
  · exact List.Nodup.of_map Prod.fst (by rw [Std.HashMap.map_fst_toList_eq_keys]; exact Std.HashMap.nodup_keys)
  · rintro ⟨k, e⟩
    rw [Std.HashMap.mem_toList_iff_getElem?_eq_some, h.map_iff]

lemma map_size (h : Rep inner l held) : inner.map.size = (held ++ l).length := by
  rw [← Std.HashMap.length_toList, h.map_perm.length_eq]

lemma map_isEmpty (h : Rep inner l held) : inner.map.isEmpty = (held ++ l).isEmpty := by
  rw [← Std.HashMap.isEmpty_toList, Bool.eq_iff_iff, List.isEmpty_iff, List.isEmpty_iff]
  exact ⟨fun hnil => (hnil ▸ h.map_perm).nil_eq.symm,
    fun hnil => (hnil ▸ h.map_perm).eq_nil⟩

lemma order_toList (h : Rep inner l held) :
    inner.order.toList = l.map fun x => (x.2.seq, x.1) := by
  have hperm : inner.order.toList.Perm (l.map fun x => (x.2.seq, x.1)) := by
    have hsorted : (l.map fun x => (x.2.seq, x.1)).Nodup := by
      refine List.Nodup.of_map Prod.fst ?_
      rw [List.map_map]
      exact (List.pairwise_map.mpr (h.sorted.imp fun hlt => ne_of_lt hlt))
    refine (List.perm_ext_iff_of_nodup ?_ hsorted).mpr ?_
    · refine List.Nodup.of_map Prod.fst ?_
      rw [Std.TreeMap.map_fst_toList_eq_keys]
      exact Std.TreeMap.nodup_keys
    · rintro ⟨s, k⟩
      rw [Std.TreeMap.mem_toList_iff_getElem?_eq_some, h.order_iff, List.mem_map]
      constructor
      · rintro ⟨e, he, rfl⟩
        exact ⟨(k, e), he, rfl⟩
      · rintro ⟨⟨k', e⟩, he, heq⟩
        obtain ⟨rfl, rfl⟩ := Prod.mk.inj heq
        exact ⟨e, he, rfl⟩
  have hkeys : inner.order.toList.Pairwise fun x y => x.1 < y.1 :=
    Std.TreeMap.ordered_keys_toList.imp fun h => Nat.compare_eq_lt.mp h
  refine hperm.eq_of_pairwise (fun x y _ _ hxy hyx => ?_) hkeys (List.pairwise_map.mpr h.sorted)
  exact absurd hxy (lt_asymm hyx)

lemma order_size (h : Rep inner l held) : inner.order.size = l.length := by
  rw [← Std.TreeMap.length_toList, h.order_toList, List.length_map]

lemma order_isEmpty (h : Rep inner l held) : inner.order.isEmpty = l.isEmpty := by
  rw [← Std.TreeMap.isEmpty_toList, h.order_toList]
  cases l <;> rfl

lemma key_inj (h : Rep inner l held) {x y : Str × Entry} (hx : x ∈ held ++ l)
    (hy : y ∈ held ++ l) (heq : x.1 = y.1) : x = y :=
  List.inj_on_of_nodup_map h.nodup hx hy heq

/-! ## Small updates -/

/-- Entries may be taken out of the order and put back. -/
lemma reorder (h : Rep inner l held) {order : Std.TreeMap ℕ Str} {l' held' : Slots}
    (hperm : (held' ++ l').Perm (held ++ l))
    (hsorted : l'.Pairwise fun x y => x.2.seq < y.2.seq)
    (horder : ∀ s k, order[s]? = some k ↔ ∃ e, (k, e) ∈ l' ∧ e.seq = s) :
    Rep { inner with order := order } l' held' where
  sorted := hsorted
  nodup := (hperm.map Prod.fst).nodup_iff.mpr h.nodup
  map_iff := fun k e => by rw [h.map_iff, hperm.mem_iff]
  order_iff := horder
  seq_lt := fun x hx => h.seq_lt x (hperm.mem_iff.mp hx)
  memory := by rw [h.memory, (hperm.map fun x => x.2.size).sum_eq]

end Rep

/-- The entries under other keys. -/
def others (key : Str) (l : Slots) : Slots := l.filter fun x => x.1 ≠ key

lemma seq_inj {l : Slots} (hsorted : l.Pairwise fun x y => x.2.seq < y.2.seq)
    {x y : Str × Entry} (hx : x ∈ l) (hy : y ∈ l) (heq : x.2.seq = y.2.seq) : x = y := by
  have hnodup : (l.map fun x => x.2.seq).Nodup :=
    List.pairwise_map.mpr (hsorted.imp fun hlt => ne_of_lt hlt)
  exact List.inj_on_of_nodup_map hnodup hx hy heq

/-- An entry and the others make up the list. -/
lemma perm_others {l : Slots} (hnodup : (l.map Prod.fst).Nodup) {k : Str} {e : Entry}
    (hmem : (k, e) ∈ l) : ((k, e) :: others k l).Perm l :=
  Lru.perm_filter_ne hnodup hmem

namespace Rep

variable {inner : Inner} {l held : Slots}

lemma nodup_l (h : Rep inner l held) : (l.map Prod.fst).Nodup := by
  have hnodup := h.nodup
  rw [List.map_append] at hnodup
  exact hnodup.of_append_right

/-- Take an entry out of the order. -/
lemma hold (h : Rep inner l held) {k : Str} {e : Entry} (hmem : (k, e) ∈ l) :
    Rep { inner with order := inner.order.erase e.seq } (others k l) ((k, e) :: held) := by
  have hperm := perm_others h.nodup_l hmem
  have hnotin : ∀ x ∈ others k l, x.1 ≠ k := fun x hx => of_decide_eq_true (List.mem_filter.mp hx).2
  refine h.reorder ?_ (h.sorted.sublist List.filter_sublist) fun s k' => ?_
  · rw [List.cons_append]
    exact List.perm_middle.symm.trans (hperm.append_left held)
  · simp only [Std.TreeMap.getElem?_erase, Std.LawfulEqCmp.compare_eq_iff_eq]
    by_cases hs : e.seq = s
    · rw [if_pos hs]
      constructor
      · intro hnone
        exact absurd hnone (by simp)
      · rintro ⟨e', he', hseq⟩
        have heq := seq_inj h.sorted (hperm.subset (List.mem_cons_of_mem _ he')) hmem
          (hseq.trans hs.symm)
        exact absurd (congrArg Prod.fst heq) (hnotin _ he')
    · rw [if_neg hs, h.order_iff]
      constructor
      · rintro ⟨e', he', hseq⟩
        rcases List.mem_cons.mp (hperm.symm.subset he') with heq | hin
        · exact absurd (by rw [← hseq, (Prod.mk.inj heq).2]) hs
        · exact ⟨e', hin, hseq⟩
      · rintro ⟨e', he', hseq⟩
        exact ⟨e', hperm.subset (List.mem_cons_of_mem _ he'), hseq⟩

/-- Put an entry back into the order, where its time of use belongs. -/
lemma release {k : Str} {e : Entry} (h : Rep inner l ((k, e) :: held)) {l' : Slots}
    (hperm : l'.Perm ((k, e) :: l)) (hsorted : l'.Pairwise fun x y => x.2.seq < y.2.seq) :
    Rep { inner with order := inner.order.insert e.seq k } l' held := by
  refine h.reorder ?_ hsorted fun s k' => ?_
  · rw [List.cons_append]
    exact (hperm.append_left held).trans List.perm_middle
  · simp only [Std.TreeMap.getElem?_insert, Std.LawfulEqCmp.compare_eq_iff_eq]
    by_cases hs : e.seq = s
    · rw [if_pos hs]
      constructor
      · intro heq
        obtain rfl := Option.some.inj heq
        exact ⟨e, hperm.symm.subset List.mem_cons_self, hs⟩
      · rintro ⟨e', he', hseq⟩
        have heq := seq_inj hsorted he' (hperm.symm.subset List.mem_cons_self)
          (hseq.trans hs.symm)
        rw [(Prod.mk.inj heq).1]
    · rw [if_neg hs, h.order_iff]
      constructor
      · rintro ⟨e', he', hseq⟩
        exact ⟨e', hperm.symm.subset (List.mem_cons_of_mem _ he'), hseq⟩
      · rintro ⟨e', he', hseq⟩
        rcases List.mem_cons.mp (hperm.subset he') with heq | hin
        · exact absurd (by rw [← hseq, (Prod.mk.inj heq).2]) hs
        · exact ⟨e', hin, hseq⟩

/-- Drop an entry that is out of the order. -/
lemma drop {k : Str} {e : Entry} (h : Rep inner l ((k, e) :: held)) :
    e.size ≤ inner.currentMemory ∧
      Rep { inner with map := inner.map.erase k, currentMemory := inner.currentMemory - e.size }
        l held := by
  have hmemory : inner.currentMemory = e.size + ((held ++ l).map fun x => x.2.size).sum := by
    rw [h.memory, List.cons_append, List.map_cons, List.sum_cons]
  have hnodup : k ∉ (held ++ l).map Prod.fst ∧ ((held ++ l).map Prod.fst).Nodup := by
    have hcons := h.nodup
    rw [List.cons_append, List.map_cons] at hcons
    exact List.nodup_cons.mp hcons
  refine ⟨by omega, h.sorted, hnodup.2, fun k' e' => ?_, h.order_iff,
    fun x hx => h.seq_lt x (List.mem_cons_of_mem _ hx), ?_⟩
  · simp only [Std.HashMap.getElem?_erase, beq_iff_eq]
    by_cases hk : k = k'
    · subst hk
      rw [if_pos rfl]
      constructor
      · intro hnone
        exact absurd hnone (by simp)
      · intro hin
        exact absurd (List.mem_map_of_mem hin) hnodup.1
    · rw [if_neg hk, h.map_iff, List.cons_append, List.mem_cons]
      constructor
      · rintro (heq | hin)
        · exact absurd (Prod.mk.inj heq).1.symm hk
        · exact hin
      · exact .inr
  · change inner.currentMemory - e.size = _
    omega

/-- Add an entry, out of the order. -/
lemma add (h : Rep inner l held) {k : Str} {e : Entry} (hk : k ∉ (held ++ l).map Prod.fst)
    {n : ℕ} (hseq : e.seq < n) (hn : inner.nextSeq ≤ n) :
    Rep { inner with
      map := inner.map.insert k e
      currentMemory := inner.currentMemory + e.size
      nextSeq := n } l ((k, e) :: held) where
  sorted := h.sorted
  nodup := by
    rw [List.cons_append, List.map_cons]
    exact List.nodup_cons.mpr ⟨hk, h.nodup⟩
  map_iff := fun k' e' => by
    simp only [Std.HashMap.getElem?_insert, beq_iff_eq, List.cons_append, List.mem_cons]
    by_cases hkey : k = k'
    · subst hkey
      rw [if_pos rfl]
      constructor
      · intro heq
        exact .inl (by rw [Option.some.inj heq])
      · rintro (heq | hin)
        · rw [(Prod.mk.inj heq).2]
        · exact absurd (List.mem_map_of_mem hin) hk
    · rw [if_neg hkey, h.map_iff]
      constructor
      · exact .inr
      · rintro (heq | hin)
        · exact absurd (Prod.mk.inj heq).1.symm hkey
        · exact hin
  order_iff := h.order_iff
  seq_lt := fun x hx => by
    rcases List.mem_cons.mp hx with rfl | hin
    · exact hseq
    · exact lt_of_lt_of_le (h.seq_lt x hin) hn
  memory := by
    rw [List.cons_append, List.map_cons, List.sum_cons, ← h.memory, Nat.add_comm]

/-- Change an entry that is out of the order. -/
lemma change {k : Str} {e : Entry} (h : Rep inner l ((k, e) :: held)) (e' : Entry) {n m : ℕ}
    (hseq : e'.seq < n) (hn : inner.nextSeq ≤ n) (hm : m + e.size = inner.currentMemory + e'.size) :
    Rep { inner with map := inner.map.insert k e', currentMemory := m, nextSeq := n }
      l ((k, e') :: held) := by
  obtain ⟨hle, hdrop⟩ := h.drop
  have hnotin : k ∉ (held ++ l).map Prod.fst := by
    have hcons := h.nodup
    rw [List.cons_append, List.map_cons] at hcons
    exact (List.nodup_cons.mp hcons).1
  have hadd := hdrop.add hnotin hseq hn
  refine ⟨hadd.sorted, hadd.nodup, fun k' e'' => ?_, hadd.order_iff, hadd.seq_lt, ?_⟩
  · rw [← hadd.map_iff, Std.HashMap.getElem?_insert, Std.HashMap.getElem?_insert,
      Std.HashMap.getElem?_erase]
    split <;> rfl
  · rw [← hadd.memory]
    change m = inner.currentMemory - e.size + e'.size
    omega

/-! ## Eviction and removal -/

lemma others_cons_self {x : Str × Entry} (hnodup : ((x :: l).map Prod.fst).Nodup) :
    others x.1 (x :: l) = l := by
  rw [List.map_cons, List.nodup_cons] at hnodup
  have hkeep : ∀ y ∈ l, decide (y.1 ≠ x.1) = true := by
    intro y hy
    refine decide_eq_true fun heq => hnodup.1 ?_
    rw [← heq]
    exact List.mem_map_of_mem hy
  rw [others, List.filter_cons_of_neg (by simp), List.filter_eq_self.mpr hkeep]

lemma others_eq_self {key : Str} (hkey : key ∉ l.map Prod.fst) : others key l = l := by
  refine List.filter_eq_self.mpr fun x hx => decide_eq_true fun heq => hkey ?_
  rw [← heq]
  exact List.mem_map_of_mem hx

/-- The first entry of the order goes. -/
lemma evictOldest {x : Str × Entry} (h : Rep inner (x :: l) held) :
    ∃ inner', inner.evictOldest = .ok inner' ∧ Rep inner' l held := by
  obtain ⟨k, e⟩ := x
  have hmem : (k, e) ∈ (k, e) :: l := List.mem_cons_self
  have hfirst : inner.order.toList.head? = some (e.seq, k) := by
    rw [h.order_toList]
    rfl
  have hget : inner.map[k]? = some e := (h.map_iff k e).mpr (List.mem_append_right held hmem)
  obtain ⟨hle, hdrop⟩ := (h.hold hmem).drop
  rw [others_cons_self h.nodup_l] at hdrop
  refine ⟨_, ?_, hdrop⟩
  unfold Inner.evictOldest
  simp only [hfirst, hget]
  rw [sub_eq hle]
  rfl

/-- The run of an eviction loop: it ends, and drops the shortest prefix of the order. -/
lemma evictTurns {cond : Inner → Bool} {fits : Slots → Prop} [DecidablePred fits]
    (hcond : ∀ inner l, Rep inner l held → (cond inner = true ↔ l ≠ [] ∧ ¬fits l))
    (h : Rep inner l held) {turns : ℕ} (hturns : l.length ≤ turns) :
    ∃ inner', inner.evictTurns cond turns = .ok inner' ∧ Rep inner' (Lru.trim fits l) held := by
  induction turns generalizing inner l with
  | zero =>
    obtain rfl : l = [] := List.length_eq_zero_iff.mp (Nat.le_zero.mp hturns)
    have hstop : cond inner = false := by
      rw [← Bool.not_eq_true, hcond inner [] h]
      exact fun hne => hne.1 rfl
    exact ⟨inner, by rw [Inner.evictTurns, hstop]; rfl, h⟩
  | succ turns ih =>
    by_cases hgo : cond inner = true
    · obtain ⟨hne, hfits⟩ := (hcond inner l h).mp hgo
      obtain ⟨x, l, rfl⟩ := List.exists_cons_of_ne_nil hne
      obtain ⟨inner₁, hevict, hrep⟩ := h.evictOldest
      obtain ⟨inner₂, hrest, hrep₂⟩ := ih hrep (by simpa using hturns)
      refine ⟨inner₂, ?_, by rwa [Lru.trim_cons_of_not hfits]⟩
      rw [Inner.evictTurns, if_pos hgo, hevict, ok_bind, hrest]
    · have htrim : Lru.trim fits l = l := by
        cases l with
        | nil => rfl
        | cons x l =>
          refine Lru.trim_of_fits (not_not.mp fun hfits => hgo ?_)
          exact (hcond inner _ h).mpr ⟨List.cons_ne_nil x l, hfits⟩
      refine ⟨inner, ?_, by rwa [htrim]⟩
      rw [Inner.evictTurns, if_neg hgo]

lemma evictWhile {cond : Inner → Bool} {fits : Slots → Prop} [DecidablePred fits]
    (hcond : ∀ inner l, Rep inner l held → (cond inner = true ↔ l ≠ [] ∧ ¬fits l))
    (h : Rep inner l held) :
    ∃ inner', inner.evictWhile cond = .ok inner' ∧ Rep inner' (Lru.trim fits l) held :=
  h.evictTurns hcond h.order_size.ge

/-- The entry of a key goes. -/
lemma remove (h : Rep inner l []) (key : Str) :
    ∃ inner', inner.remove key = .ok inner' ∧ Rep inner' (others key l) [] := by
  unfold Inner.remove
  cases hget : inner.map[key]? with
  | none =>
    have hkey : key ∉ l.map Prod.fst := by
      intro hin
      obtain ⟨⟨k, e⟩, hmem, rfl⟩ := List.mem_map.mp hin
      rw [(h.map_iff k e).mpr hmem] at hget
      exact absurd hget (by simp)
    exact ⟨inner, rfl, by rwa [others_eq_self hkey]⟩
  | some old =>
    have hmem : (key, old) ∈ l := (h.map_iff key old).mp hget
    obtain ⟨hle, hdrop⟩ := (h.hold hmem).drop
    refine ⟨_, ?_, hdrop⟩
    simp only
    rw [sub_eq hle]
    rfl

end Rep
end Inner

/-! ## The cached files in order of use -/

/-- An entry as an item of the ideal cache. -/
def toItem (x : Str × Entry) : Lru.Item Str CachedFile := ⟨x.1, x.2.file, x.2.size⟩

/-- The cached files in order of use, the oldest first. -/
def Inner.recency (inner : Inner) : List (Lru.Item Str CachedFile) :=
  inner.order.toList.filterMap fun (_, key) =>
    inner.map[key]?.map fun entry => toItem (key, entry)

lemma total_map_toItem (l : Slots) : Lru.total (l.map toItem) = (l.map fun x => x.2.size).sum := by
  rw [Lru.total, List.map_map]
  rfl

lemma map_others (key : Str) (l : Slots) :
    (Inner.others key l).map toItem = Lru.others key (l.map toItem) := by
  rw [Inner.others, Lru.others, List.filter_map]
  rfl

namespace Inner.Rep

variable {inner : Inner} {l : Slots}

lemma recency_eq (h : Rep inner l []) : inner.recency = l.map toItem := by
  rw [recency, h.order_toList, List.filterMap_map, ← List.filterMap_eq_map]
  refine List.filterMap_congr fun x hx => ?_
  have hget : inner.map[x.1]? = some x.2 := (h.map_iff x.1 x.2).mpr hx
  simp only [Function.comp, hget, Option.map_some]

/-- The item of a key is its entry. -/
lemma find?_recency (h : Rep inner l []) (key : Str) :
    (inner.recency.find? fun it => it.key = key) =
      inner.map[key]?.map fun entry => toItem (key, entry) := by
  rw [h.recency_eq]
  cases hget : inner.map[key]? with
  | none =>
    rw [Option.map_none, List.find?_eq_none]
    intro it hit hkey
    obtain ⟨⟨k, e⟩, hmem, rfl⟩ := List.mem_map.mp hit
    obtain rfl : k = key := of_decide_eq_true hkey
    rw [(h.map_iff k e).mpr hmem] at hget
    exact absurd hget (by simp)
  | some e =>
    have hmem : (key, e) ∈ l := (h.map_iff key e).mp hget
    have hsome : ((l.map toItem).find? fun it => it.key = key).isSome := by
      rw [List.find?_isSome]
      exact ⟨_, List.mem_map_of_mem hmem, decide_eq_true rfl⟩
    obtain ⟨it, hit⟩ := Option.isSome_iff_exists.mp hsome
    obtain ⟨⟨k, e'⟩, hmem', rfl⟩ := List.mem_map.mp (List.mem_of_find?_eq_some hit)
    have hpred := List.find?_some hit
    have hkey : k = key := of_decide_eq_true (show decide (k = key) = true from hpred)
    rw [hit, h.key_inj hmem' hmem hkey]
    rfl

end Inner.Rep

/-! ## What the operations do -/

namespace FileCache

def recency (cache : FileCache) : List (Lru.Item Str CachedFile) := cache.inner.recency

def limits (cache : FileCache) : Lru.Limits := ⟨cache.maxSize, cache.maxMemoryBytes⟩

/-- The map, the order and the counters describe one list of entries. -/
def Sound (cache : FileCache) : Prop := ∃ l, cache.inner.Rep l []

lemma Sound.nodup_keys {cache : FileCache} (h : cache.Sound) :
    (cache.recency.map Lru.Item.key).Nodup := by
  obtain ⟨l, hrep⟩ := h
  rw [recency, hrep.recency_eq, List.map_map]
  exact hrep.nodup_l

/-- A hit returns the file of its key and makes it the newest. -/
lemma get_spec {cache : FileCache} (h : cache.Sound) (key : Str) :
    (cache.get key).1 = (cache.recency.find? fun it => it.key = key).map Lru.Item.value ∧
    (cache.get key).2.Sound ∧ (cache.get key).2.limits = cache.limits ∧
    (cache.get key).2.recency = Lru.hit key cache.recency := by
  obtain ⟨l, hrep⟩ := h
  rw [recency, Lru.hit, hrep.find?_recency key]
  unfold get
  cases hget : cache.inner.map[key]? with
  | none => exact ⟨rfl, ⟨l, hrep⟩, rfl, rfl⟩
  | some e =>
    have hmem : (key, e) ∈ l := (hrep.map_iff key e).mp hget
    let e' : Entry := { e with seq := cache.inner.nextSeq }
    have hheld : Inner.Rep { cache.inner with
          order := cache.inner.order.erase e.seq
          map := cache.inner.map.insert key e'
          nextSeq := cache.inner.nextSeq + 1 } (Inner.others key l) [(key, e')] :=
      (hrep.hold hmem).change e' (Nat.lt_succ_self _) (Nat.le_succ _) rfl
    have hsorted : (Inner.others key l ++ [(key, e')]).Pairwise fun x y => x.2.seq < y.2.seq := by
      refine List.pairwise_append.mpr ⟨hheld.sorted, List.pairwise_singleton _ _, ?_⟩
      intro x hx y hy
      obtain rfl := List.mem_singleton.mp hy
      exact hrep.seq_lt x (List.mem_filter.mp hx).1
    have hnew := hheld.release (List.perm_append_singleton _ _) hsorted
    refine ⟨rfl, ⟨_, hnew⟩, rfl, ?_⟩
    refine hnew.recency_eq.trans ?_
    rw [List.map_append, map_others, ← hrep.recency_eq]
    rfl

/-- A file of a kept size is stored as the newest, with room made for it. -/
lemma insert_spec (md5 : List Byte → Vector Byte 16) {cache : FileCache} (h : cache.Sound)
    (key : Str) (data : List Byte) (encodings : ℕ) :
    ∃ cache', cache.insert md5 key data encodings =
        .ok (⟨data, computeEtag md5 data, encodings⟩, cache') ∧
      cache'.Sound ∧ cache'.limits = cache.limits ∧
      cache'.recency = if cache.keeps data.length then
        Lru.insert cache.limits ⟨key, ⟨data, computeEtag md5 data, encodings⟩, data.length⟩
          cache.recency else cache.recency := by
  simp only [insert]
  cases hkeeps : cache.keeps data.length with
  | false => exact ⟨cache, rfl, h, rfl, rfl⟩
  | true =>
    obtain ⟨l, hrep⟩ := h
    -- The entry of the key goes first; then the two loops of the source evict in turn, one for the
    -- count and one for the bytes.
    obtain ⟨inner₁, hremove, hrep₁⟩ := hrep.remove key
    let few (l : Slots) : Prop := (l.map toItem).length < cache.maxSize
    let small (l : Slots) : Prop := Lru.total (l.map toItem) + data.length ≤ cache.maxMemoryBytes
    have hfew : ∀ inner l, Inner.Rep inner l [] →
        ((decide (cache.maxSize ≤ inner.map.size) && !inner.map.isEmpty) = true ↔
          l ≠ [] ∧ ¬few l) := by
      intro inner l h
      rw [h.map_size, h.map_isEmpty]
      simp [few, and_comm]
    have hsmall : ∀ inner l, Inner.Rep inner l [] →
        ((decide (cache.maxMemoryBytes < inner.currentMemory + data.length) &&
          !inner.map.isEmpty) = true ↔ l ≠ [] ∧ ¬small l) := by
      intro inner l h
      rw [h.memory, h.map_isEmpty, List.nil_append, ← total_map_toItem]
      simp [small, and_comm]
    obtain ⟨inner₂, hcount, hrep₂⟩ := hrep₁.evictWhile hfew
    obtain ⟨inner₃, hbytes, hrep₃⟩ := hrep₂.evictWhile hsmall
    -- The second loop only shortens the order, so what the first made room for stays: together they
    -- evict what one loop with both conditions does.
    have htrim : Lru.trim small (Lru.trim few (Inner.others key l)) =
        Lru.trim (fun l => few l ∧ small l) (Inner.others key l) :=
      Lru.trim_trim (fun _ _ hlt => Nat.lt_of_succ_lt hlt) _
    rw [htrim] at hrep₃
    generalize hkept : Lru.trim (fun l => few l ∧ small l) (Inner.others key l) = kept at hrep₃
    have hsub : ∀ x ∈ kept, x.1 ≠ key := by
      intro x hx
      rw [← hkept] at hx
      exact of_decide_eq_true (List.mem_filter.mp ((Lru.trim_suffix _).subset hx)).2
    let entry : Entry :=
      ⟨data, computeEtag md5 data, encodings, data.length, inner₃.nextSeq⟩
    have hkey : key ∉ ([] ++ kept).map Prod.fst := by
      intro hin
      obtain ⟨x, hx, hxkey⟩ := List.mem_map.mp hin
      exact hsub x hx hxkey
    -- Stored but not yet queued: `release` puts the entry last, under the newest number.
    have hheld := hrep₃.add (e := entry) hkey (Nat.lt_succ_self _) (Nat.le_succ _)
    have hsorted : (kept ++ [(key, entry)]).Pairwise fun x y => x.2.seq < y.2.seq := by
      refine List.pairwise_append.mpr ⟨hheld.sorted, List.pairwise_singleton _ _, ?_⟩
      intro x hx y hy
      obtain rfl := List.mem_singleton.mp hy
      exact hrep₃.seq_lt x hx
    let inner₄ : Inner := { inner₃ with
      nextSeq := inner₃.nextSeq + 1
      order := inner₃.order.insert inner₃.nextSeq key
      map := inner₃.map.insert key entry
      currentMemory := inner₃.currentMemory + data.length }
    have hnew : inner₄.Rep (kept ++ [(key, entry)]) [] :=
      hheld.release (List.perm_append_singleton _ _) hsorted
    refine ⟨{ cache with inner := inner₄ }, ?_, ⟨_, hnew⟩, rfl, ?_⟩
    · rw [if_neg (by decide), hremove, ok_bind, hcount, ok_bind, evictFor, hbytes, ok_bind]
      rfl
    · refine hnew.recency_eq.trans ?_
      have hroom : kept.map toItem =
          Lru.trim (cache.limits.HasRoom data.length) (Lru.others key cache.recency) := by
        rw [recency, hrep.recency_eq, ← map_others, ← Lru.map_trim, ← hkept]
        rfl
      rw [if_pos rfl, List.map_append, hroom, Lru.insert]
      rfl

/-- The first item of a key is the entry under it. -/
lemma find?_recency {cache : FileCache} {l : Slots} (h : cache.inner.Rep l []) (key : Str) :
    (cache.recency.find? fun it => it.key = key) =
      cache.inner.map[key]?.map fun entry => toItem (key, entry) :=
  h.find?_recency key

/-- An entry with `bytes` more. -/
def grown (bytes : ℕ) (x : Str × Entry) : Str × Entry :=
  (x.1, { x.2 with size := x.2.size + bytes })

/-- The entries that stay when the one under `key` grows, in their order. -/
def grownSlots (key : Str) (bytes : ℕ) (kept l : Slots) : Slots :=
  (l.filter fun x => x.1 = key ∨ ∃ y ∈ kept, y.1 = x.1).map fun x =>
    if x.1 = key then grown bytes x else x

lemma grownSlots_perm {key : Str} {entry : Entry} {bytes : ℕ} {kept l : Slots}
    (hnodup : (l.map Prod.fst).Nodup) (hmem : (key, entry) ∈ l)
    (hkept : kept <:+ Inner.others key l) :
    (grownSlots key bytes kept l).Perm (grown bytes (key, entry) :: kept) :=
  Lru.perm_map_filter (grown bytes) hnodup hmem hkept

lemma grownSlots_sorted {key : Str} {bytes : ℕ} {kept l : Slots}
    (h : l.Pairwise fun x y => x.2.seq < y.2.seq) :
    (grownSlots key bytes kept l).Pairwise fun x y => x.2.seq < y.2.seq := by
  have hseq : ∀ x : Str × Entry,
      (if x.1 = key then grown bytes x else x).2.seq = x.2.seq := by
    intro x
    split <;> rfl
  refine List.pairwise_map.mpr ((h.sublist List.filter_sublist).imp fun hlt => ?_)
  rwa [hseq, hseq]

/-- An entry that grows stays where it is, with room made for it among the others. -/
lemma growEntry_spec {cache : FileCache} {l : Slots} (h : cache.inner.Rep l []) {key : Str}
    {entry : Entry} (hget : cache.inner.map[key]? = some entry) (bytes : ℕ) :
    ∃ cache', cache.growEntry key entry bytes = .ok cache' ∧ cache'.Sound ∧
      cache'.limits = cache.limits ∧
      cache'.recency = Lru.grow cache.limits key bytes cache.recency := by
  have hmem : (key, entry) ∈ l := (h.map_iff key entry).mp hget
  let larger : Entry := { entry with size := entry.size + bytes }
  let fits (l : Slots) : Prop :=
    Lru.total (l.map toItem) + (entry.size + bytes) ≤ cache.maxMemoryBytes
  -- The grown entry leaves the order while the others are evicted, so it is never evicted itself,
  -- and comes back under the number it had.
  have hheld : Inner.Rep { cache.inner with
        order := cache.inner.order.erase entry.seq
        map := cache.inner.map.insert key larger
        currentMemory := cache.inner.currentMemory + bytes } (Inner.others key l)
      [(key, larger)] :=
    (h.hold hmem).change larger (h.seq_lt _ hmem) le_rfl (by
      change cache.inner.currentMemory + bytes + entry.size =
        cache.inner.currentMemory + (entry.size + bytes)
      omega)
  have hfits : ∀ inner l, Inner.Rep inner l [(key, larger)] →
      ((decide (cache.maxMemoryBytes < inner.currentMemory) && !inner.order.isEmpty) = true ↔
        l ≠ [] ∧ ¬fits l) := by
    intro inner l h
    rw [h.memory, h.order_isEmpty, List.cons_append, List.nil_append, List.map_cons,
      List.sum_cons, ← total_map_toItem, Nat.add_comm]
    simp [fits, larger, and_comm]
  obtain ⟨inner₁, hevict, hrep₁⟩ := hheld.evictWhile hfits
  generalize hkept : Lru.trim fits (Inner.others key l) = kept at hrep₁
  have hsuffix : kept <:+ Inner.others key l := hkept ▸ Lru.trim_suffix _
  let inner₂ : Inner := { inner₁ with order := inner₁.order.insert entry.seq key }
  have hnew : inner₂.Rep (grownSlots key bytes kept l) [] :=
    hrep₁.release (grownSlots_perm h.nodup_l hmem hsuffix) (grownSlots_sorted h.sorted)
  refine ⟨{ cache with inner := inner₂ }, ?_, ⟨_, hnew⟩, rfl, ?_⟩
  · rw [growEntry, hevict, ok_bind]
    rfl
  · have hroom : Lru.trim (cache.limits.HasBytes ((toItem (key, entry)).size + bytes))
        (Lru.others key (l.map toItem)) = kept.map toItem := by
      rw [← map_others, ← Lru.map_trim, ← hkept]
      rfl
    have hfind : ((l.map toItem).find? fun it => it.key = key) = some (toItem (key, entry)) := by
      rw [← h.recency_eq, h.find?_recency, hget]
      rfl
    refine hnew.recency_eq.trans ?_
    rw [recency, h.recency_eq, Lru.grow, hfind]
    simp only
    rw [hroom, grownSlots, List.filter_map, List.map_map, List.map_map]
    refine congrArg₂ List.map (funext fun x => ?_) (List.filter_congr fun x _ => ?_)
    · by_cases hx : x.1 = key
      · simp [grown, toItem, hx, Entry.file]
      · simp [toItem, hx]
    · refine decide_eq_decide.mpr (or_congr Iff.rfl ⟨?_, ?_⟩)
      · rintro ⟨y, hy, heq⟩
        exact ⟨toItem y, List.mem_map_of_mem hy, heq⟩
      · rintro ⟨_, hit, heq⟩
        obtain ⟨y, hy, rfl⟩ := List.mem_map.mp hit
        exact ⟨y, hy, heq⟩

/-- Only the entry that holds the file of the encoding grows. -/
lemma addEncoding_spec {cache : FileCache} (h : cache.Sound) (key : Str) (file : CachedFile)
    (bytes : ℕ) :
    ∃ cache', cache.addEncoding key file bytes = .ok cache' ∧ cache'.Sound ∧
      cache'.limits = cache.limits ∧
      cache'.recency = if ∃ it ∈ cache.recency, it.key = key ∧ it.value.encodings = file.encodings
        then Lru.grow cache.limits key bytes cache.recency else cache.recency := by
  obtain ⟨l, hrep⟩ := h
  have hiff : (∃ it ∈ cache.recency, it.key = key ∧ it.value.encodings = file.encodings) ↔
      ∃ entry, cache.inner.map[key]? = some entry ∧ entry.encodings = file.encodings := by
    rw [recency, hrep.recency_eq]
    constructor
    · rintro ⟨it, hit, rfl, hsame⟩
      obtain ⟨⟨k, e⟩, hmem, rfl⟩ := List.mem_map.mp hit
      exact ⟨e, (hrep.map_iff k e).mpr hmem, hsame⟩
    · rintro ⟨e, hget, hsame⟩
      exact ⟨toItem (key, e), List.mem_map_of_mem ((hrep.map_iff key e).mp hget), rfl, hsame⟩
  unfold addEncoding
  cases hget : cache.inner.map[key]? with
  | none =>
    refine ⟨cache, rfl, ⟨l, hrep⟩, rfl, (if_neg fun hex => ?_).symm⟩
    obtain ⟨e, he, -⟩ := hiff.mp hex
    rw [hget] at he
    exact absurd he (by simp)
  | some entry =>
    -- The entry under the key may by now hold a later file, which must not be charged.
    by_cases hsame : entry.encodings = file.encodings
    · rw [if_pos (hiff.mpr ⟨entry, hget, hsame⟩)]
      simp only [if_pos hsame]
      exact growEntry_spec hrep hget bytes
    · refine ⟨cache, by simp only [if_neg hsame], ⟨l, hrep⟩, rfl, (if_neg fun hex => ?_).symm⟩
      obtain ⟨e, he, hsame'⟩ := hiff.mp hex
      rw [hget] at he
      exact hsame (Option.some.inj he ▸ hsame')

/-- Where no entry holds the file of the encoding, nothing changes. -/
lemma addEncoding_eq_self {cache : FileCache} (h : cache.Sound) {key : Str} {file : CachedFile}
    (hnot : ∀ it ∈ cache.recency, it.key = key → it.value.encodings ≠ file.encodings)
    (bytes : ℕ) : cache.addEncoding key file bytes = .ok cache := by
  obtain ⟨l, hrep⟩ := h
  unfold addEncoding
  cases hget : cache.inner.map[key]? with
  | none => rfl
  | some entry =>
    have hmem : toItem (key, entry) ∈ cache.recency := by
      rw [recency, hrep.recency_eq]
      exact List.mem_map_of_mem ((hrep.map_iff key entry).mp hget)
    exact if_neg (hnot _ hmem rfl)

end FileCache

end RemoteClient
