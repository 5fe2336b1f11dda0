/-
# Buffers cut into blocks of one width

A cipher works on a buffer one block at a time.  Here a buffer is a list of blocks followed
by a rest that is shorter than a block: reading and overwriting a block of the buffer is
reading and setting an item of the list, and two loops over the same distinct blocks cancel
when they cancel block by block (`foldl_modify_cancel`).
-/
import RemoteClient.Lib.Bytes
import Mathlib.Data.List.Nodup

namespace RemoteClient
namespace Blocks

open Exec Bytes

variable {ε α β : Type} {w : ℕ}

/-- Copy `s` over the items of `l` from offset `p` on. -/
def splice (l : List α) (p : ℕ) (s : List α) : List α := l.take p ++ s ++ l.drop (p + s.length)

/-- A slice as an array of width `w`: a slice of any other length panics. -/
def toArray (w : ℕ) (l : List α) : Exec ε (Vector α w) :=
  if h : l.length = w then .ok ⟨l.toArray, by simpa using h⟩ else crash

/-- The items from `a` to `b` as an array, as `l[a..b].try_into().expect(..)`. -/
def subarray (l : List α) (a b : ℕ) : Exec ε (Vector α (b - a)) := do
  let s ← slice l a b
  toArray (b - a) s

/-- `chunks_exact_mut(w)`: `n` chunks of `w` items go through `f`, which threads a state from
one to the next; what is left stays as it is. -/
def mapChunks {σ : Type} (f : σ → Vector α w → Vector α w × σ) :
    ℕ → σ → List α → Exec ε (List α × σ)
  | 0, s, l => .ok (l, s)
  | n + 1, s, l => do
    let chunk ← toArray w (l.take w)
    let (chunk, s) := f s chunk
    let (rest, s) ← mapChunks f n s (l.drop w)
    return (chunk.toList ++ rest, s)

/-- The items of a list of blocks. -/
def flat (bs : List (Vector α w)) : List α := bs.flatMap Vector.toList

@[simp] lemma flat_nil : flat ([] : List (Vector α w)) = [] := rfl

@[simp] lemma flat_cons (b : Vector α w) (bs : List (Vector α w)) :
    flat (b :: bs) = b.toList ++ flat bs := rfl

@[simp] lemma flat_append (bs cs : List (Vector α w)) : flat (bs ++ cs) = flat bs ++ flat cs := by
  simp [flat]

@[simp] lemma length_flat (bs : List (Vector α w)) : (flat bs).length = bs.length * w := by
  induction bs with
  | nil => simp
  | cons b bs ih =>
    rw [flat_cons, List.length_append, ih, Vector.length_toList, List.length_cons]
    ring

lemma toArray_eq {l : List α} (h : l.length = w) :
    ∃ v : Vector α w, v.toList = l ∧ (toArray w l : Exec ε (Vector α w)) = .ok v := by
  refine ⟨⟨l.toArray, by simpa using h⟩, by simp, ?_⟩
  rw [toArray, dif_pos h]

lemma toArray_toList (v : Vector α w) : (toArray w v.toList : Exec ε (Vector α w)) = .ok v := by
  rw [toArray, dif_pos v.length_toList]
  congr 1

lemma ends_toArray {l : List α} {P : Vector α w → Prop} (h : l.length = w)
    (hP : ∀ v : Vector α w, v.toList = l → P v) : Ends (toArray w l : Exec ε (Vector α w)) P := by
  obtain ⟨v, hv, heq⟩ := toArray_eq (ε := ε) h
  exact Ends.of_eq_ok heq (hP v hv)

/-- An array within range is the same one for every caller. -/
lemma subarray_ok {l : List α} {a b : ℕ} (hab : a ≤ b) (hb : b ≤ l.length) :
    ∃ v : Vector α (b - a), ∀ ε : Type, (subarray l a b : Exec ε (Vector α (b - a))) = .ok v := by
  have hlen : ((l.drop a).take (b - a)).length = b - a := by
    rw [List.length_take, List.length_drop]
    omega
  refine ⟨⟨((l.drop a).take (b - a)).toArray, by simpa using hlen⟩, fun ε => ?_⟩
  rw [subarray, slice_eq hab hb, ok_bind, toArray, dif_pos hlen]

lemma subarray_vector {n : ℕ} (v : Vector α n) (a b : ℕ) (hab : a ≤ b) (hb : b ≤ n) :
    ∃ u : Vector α (b - a), ∀ ε : Type,
      (subarray v.toList a b : Exec ε (Vector α (b - a))) = .ok u :=
  subarray_ok hab (hb.trans v.length_toList.ge)

/-- The array that stands at a cursor. -/
lemma subarray_of_drop {data r : List α} {a b : ℕ} (v : Vector α (b - a))
    (h : data.drop a = v.toList ++ r) (hab : a ≤ b) (ha : a ≤ data.length) :
    (subarray data a b : Exec ε (Vector α (b - a))) = .ok v := by
  have hslice : (slice data a b : Exec ε (List α)) = .ok v.toList :=
    slice_of_drop h (by rw [Vector.length_toList]; omega) ha
  rw [subarray, hslice, ok_bind, toArray_toList]

/-- A part of an array is read off index by index. -/
lemma subarray_ofFn {n : ℕ} (v : Vector α n) {a b : ℕ} (hab : a ≤ b) (hb : b ≤ n) :
    (subarray v.toList a b : Exec ε (Vector α (b - a))) =
      .ok (Vector.ofFn fun i => v[a + i.val]) := by
  refine subarray_of_drop (r := (v.toList.drop a).drop (b - a)) _ ?_ hab
    (by rw [Vector.length_toList]; omega)
  conv_lhs => rw [← List.take_append_drop (b - a) (v.toList.drop a)]
  congr 1
  apply List.ext_getElem
  · simp only [List.length_take, List.length_drop, Vector.length_toList]
    omega
  · intro i hi hi'
    simp

lemma ends_subarray {l : List α} {a b : ℕ} {P : Vector α (b - a) → Prop} (hab : a ≤ b)
    (hb : b ≤ l.length) (hP : ∀ v, P v) : Ends (subarray l a b : Exec ε _) P := by
  unfold subarray
  rw [ends_bind]
  exact ends_slice hab hb fun s hs => ends_toArray hs fun v _ => hP v

/-- Working through whole chunks keeps the length of a buffer. -/
lemma ends_mapChunks {σ : Type} (f : σ → Vector α w → Vector α w × σ) (n : ℕ) (s : σ)
    {l : List α} (h : n * w ≤ l.length) :
    Ends (mapChunks f n s l : Exec ε (List α × σ)) fun r => r.1.length = l.length := by
  induction n generalizing s l with
  | zero => exact rfl
  | succ n ih =>
    rw [Nat.succ_mul] at h
    have htake : (l.take w).length = w := by rw [List.length_take]; omega
    unfold mapChunks
    rw [ends_bind]
    refine ends_toArray htake fun c _ => ?_
    simp only
    rw [ends_bind]
    refine (ih (f s c).2 (l := l.drop w) (by rw [List.length_drop]; omega)).mono fun r' hr' => ?_
    rw [ends_pure, List.length_append, Vector.length_toList, hr', List.length_drop]
    omega

@[simp] lemma length_splice {l s : List α} {p : ℕ} (h : p + s.length ≤ l.length) :
    (splice l p s).length = l.length := by
  simp only [splice, List.length_append, List.length_take, List.length_drop]
  omega

/-- Copying over a part of the same length replaces it. -/
lemma splice_append {x y t s : List α} {p : ℕ} (hp : p = x.length) (h : y.length = s.length) :
    splice (x ++ (y ++ t)) p s = x ++ (s ++ t) := by
  rw [splice, hp, List.take_left, ← List.drop_drop, List.drop_left, ← h, List.drop_left,
    List.append_assoc]

lemma splice_front {x s : List α} (t : List α) (h : x.length = s.length) :
    splice (x ++ t) 0 s = s ++ t := splice_append (x := []) rfl h

lemma splice_back {x y s : List α} {p : ℕ} (hp : p = x.length) (h : y.length = s.length) :
    splice (x ++ y) p s = x ++ s := by
  have hcopy := splice_append (t := []) hp h
  rwa [List.append_nil, List.append_nil] at hcopy

/-- Behind the items that were overwritten nothing changes. -/
lemma drop_splice {l s : List α} {p q : ℕ} (h : p + s.length ≤ l.length) (hq : p + s.length ≤ q) :
    (splice l p s).drop q = l.drop q := by
  obtain ⟨k, rfl⟩ := Nat.exists_eq_add_of_le hq
  have hfront : (l.take p ++ s).length = p + s.length := by
    rw [List.length_append, List.length_take]
    omega
  rw [← List.drop_drop, splice, ← hfront, List.drop_left, hfront, List.drop_drop]

/-- Nor does anything in front of them. -/
lemma take_splice {l s : List α} {p q : ℕ} (hp : p ≤ l.length) (hq : q ≤ p) :
    (splice l p s).take q = l.take q := by
  have hlen : q ≤ (l.take p).length := by rw [List.length_take]; omega
  rw [splice, List.append_assoc, List.take_append_of_le_length hlen, List.take_take]
  congr 1
  omega

/-- The items that were overwritten. -/
lemma drop_splice_self {l s : List α} {p : ℕ} (hp : p ≤ l.length) :
    (splice l p s).drop p = s ++ l.drop (p + s.length) := by
  have hlen : (l.take p).length = p := by rw [List.length_take]; omega
  rw [splice, List.append_assoc]
  exact List.drop_left' hlen

/-- An item beside them is what it was. -/
lemma getElem?_splice {l s : List α} {p j : ℕ} (h : p + s.length ≤ l.length)
    (hj : j < p ∨ p + s.length ≤ j) : (splice l p s)[j]? = l[j]? := by
  rcases hj with hfront | hbehind
  · have htake := congrArg (·[j]?) (take_splice (s := s) (show p ≤ l.length by omega) le_rfl)
    simpa [List.getElem?_take, hfront] using htake
  · have hdrop := congrArg (·[0]?) (drop_splice h hbehind)
    simpa [List.getElem?_drop] using hdrop

/-- The items that were overwritten are sliced out again. -/
lemma slice_splice {l s : List α} {p : ℕ} (h : p + s.length ≤ l.length) :
    (slice (splice l p s) p (p + s.length) : Exec ε (List α)) = .ok s := by
  refine slice_of_drop (drop_splice_self (by omega)) rfl ?_
  rw [length_splice h]
  omega

/-- Copying the old items back restores the buffer. -/
lemma splice_restore {l s : List α} {p : ℕ} (h : p + s.length ≤ l.length) :
    splice (splice l p s) p ((l.drop p).take s.length) = l := by
  have hlen : ((l.drop p).take s.length).length = s.length := by
    rw [List.length_take, List.length_drop]
    omega
  rw [splice, hlen, take_splice (by omega) le_rfl, drop_splice h le_rfl, ← List.drop_drop,
    List.append_assoc, List.take_append_drop, List.take_append_drop]

/-- A front of a buffer that was replaced is sliced off, and the old one copied back. -/
lemma restore_front {l x : List α} {n : ℕ} (hx : x.length = n) (hn : n ≤ l.length) :
    (x ++ l.drop n).length = l.length ∧
      (slice (x ++ l.drop n) 0 n : Exec ε (List α)) = .ok x ∧
      splice (x ++ l.drop n) 0 (l.take n) = l := by
  refine ⟨?_, slice_front _ hx, ?_⟩
  · rw [List.length_append, List.length_drop]
    omega
  · have htake : x.length = (l.take n).length := by
      rw [List.length_take]
      omega
    rw [splice_front _ htake, List.take_append_drop]

/-- A slice depends on the items up to its end. -/
lemma slice_congr {a b : List α} {n start stop : ℕ} (h : a.take n = b.take n) (hn : stop ≤ n)
    (hlen : a.length = b.length) :
    (slice a start stop : Exec ε (List α)) = slice b start stop := by
  have htake : ∀ l : List α, (l.drop start).take (stop - start) = ((l.take n).take stop).drop start := by
    intro l
    rw [List.take_take, Nat.min_eq_left hn, List.drop_take]
  unfold slice
  rw [htake a, htake b, h, hlen]

/-- Every buffer with room for `n` blocks begins with `n` blocks. -/
lemma exists_flat (l : List α) {n : ℕ} (h : n * w ≤ l.length) :
    ∃ (bs : List (Vector α w)) (t : List α), l = flat bs ++ t ∧ bs.length = n := by
  induction n generalizing l with
  | zero => exact ⟨[], l, rfl, rfl⟩
  | succ n ih =>
    rw [Nat.succ_mul] at h
    obtain ⟨bs, t, hbs, hn⟩ := ih (l.drop w) (by rw [List.length_drop]; omega)
    obtain ⟨v, hv, -⟩ := toArray_eq (ε := Unit) (l := l.take w) (w := w)
      (by rw [List.length_take]; omega)
    refine ⟨v :: bs, t, ?_, by simp [hn]⟩
    rw [flat_cons, hv, List.append_assoc, ← hbs, List.take_append_drop]

/-- A block of a buffer, with what stands before and behind it. -/
lemma split_block {bs : List (Vector α w)} {i : ℕ} (h : i < bs.length) :
    ∃ pre post : List (Vector α w), bs = pre ++ bs[i] :: post ∧ pre.length = i :=
  ⟨bs.take i, bs.drop (i + 1), by simp, by simp; omega⟩

/-- Reading block `i` of a buffer. -/
lemma slice_flat {bs : List (Vector α w)} {t : List α} {i p q : ℕ} (h : i < bs.length)
    (hp : p = i * w) (hq : q = p + w) :
    (slice (flat bs ++ t) p q : Exec ε (List α)) = .ok bs[i].toList := by
  obtain ⟨pre, post, hbs, hpre⟩ := split_block h
  have hlen : p = (flat pre).length := by rw [length_flat, hpre, hp]
  have hdrop : (flat bs ++ t).drop p = bs[i].toList ++ (flat post ++ t) := by
    rw [congrArg flat hbs, hlen]
    simp
  refine slice_of_drop hdrop (by simp [hq]) ?_
  rw [List.length_append, length_flat, hp]
  have := Nat.mul_le_mul_right w h.le
  omega

/-- Overwriting block `i` of a buffer. -/
lemma splice_flat {bs : List (Vector α w)} {t : List α} {i p : ℕ} (v : Vector α w)
    (h : i < bs.length) (hp : p = i * w) :
    splice (flat bs ++ t) p v.toList = flat (bs.set i v) ++ t := by
  obtain ⟨pre, post, hbs, hpre⟩ := split_block h
  have hlen : p = (flat pre).length := by rw [length_flat, hpre, hp]
  generalize bs[i] = b at hbs
  subst hbs
  have hset : (pre ++ b :: post).set i v = pre ++ v :: post := by
    rw [← hpre, List.set_append_right _ _ le_rfl]
    simp
  have hold : flat (pre ++ b :: post) ++ t = flat pre ++ (b.toList ++ (flat post ++ t)) := by
    simp
  rw [hset, splice, hold, hlen, List.take_left, ← List.drop_drop, List.drop_left]
  simp

/-! ## Loops over chunks -/

section Chunks

variable {σ : Type} {f g : σ → Vector α w → Vector α w × σ}

/-- A buffer that went through `f` goes back through `g` when `g` undoes each turn of `f` and
threads the same state: the two directions of a chained block mode. -/
lemma mapChunks_cancel (hgf : ∀ s c, g s (f s c).1 = (c, (f s c).2)) (n : ℕ) (s : σ) {l : List α}
    (h : n * w ≤ l.length) :
    ∃ r s', (mapChunks f n s l : Exec ε (List α × σ)) = .ok (r, s') ∧ r.length = l.length ∧
      (mapChunks g n s r : Exec ε (List α × σ)) = .ok (l, s') := by
  induction n generalizing s l with
  | zero => exact ⟨l, s, rfl, rfl, rfl⟩
  | succ n ih =>
    rw [Nat.succ_mul] at h
    obtain ⟨c, hc, hcut⟩ := toArray_eq (ε := ε) (l := l.take w) (w := w)
      (by rw [List.length_take]; omega)
    obtain ⟨r, s', hf, hr, hg⟩ := ih (f s c).2 (l := l.drop w) (by rw [List.length_drop]; omega)
    refine ⟨(f s c).1.toList ++ r, s', ?_, ?_, ?_⟩
    · rw [mapChunks, hcut, ok_bind]
      simp only [hf, ok_bind]
      rfl
    · rw [List.length_append, Vector.length_toList, hr, List.length_drop]
      omega
    · have hw : (f s c).1.toList.length = w := Vector.length_toList
      rw [mapChunks, List.take_left' hw, List.drop_left' hw, toArray_toList, ok_bind, hgf]
      simp only [hg, ok_bind, hc, List.take_append_drop]
      rfl

/-- The items behind the chunks are left as they are. -/
lemma mapChunks_append (n : ℕ) (s : σ) {l : List α} (t : List α) (h : n * w ≤ l.length) :
    (mapChunks f n s (l ++ t) : Exec ε (List α × σ)) =
      mapChunks f n s l >>= fun r => .ok (r.1 ++ t, r.2) := by
  induction n generalizing s l with
  | zero => rfl
  | succ n ih =>
    rw [Nat.succ_mul] at h
    obtain ⟨c, -, hcut⟩ := toArray_eq (ε := ε) (l := l.take w) (w := w)
      (by rw [List.length_take]; omega)
    rw [mapChunks, mapChunks, List.take_append_of_le_length (by omega),
      List.drop_append_of_le_length (by omega), hcut, ok_bind, ok_bind]
    simp only [ih (f s c).2 (l := l.drop w) (by rw [List.length_drop]; omega), bind_assoc]
    congr 1
    funext r
    rw [ok_bind]
    exact congrArg Except.ok (Prod.ext (List.append_assoc ..).symm rfl)

/-- The same for the first `n` chunks of a buffer: what is behind them stays, and only they
are needed to go back. -/
lemma mapChunks_cancel_front (hgf : ∀ s c, g s (f s c).1 = (c, (f s c).2)) (n : ℕ) (s : σ)
    {l : List α} (h : n * w ≤ l.length) :
    ∃ r s', r.length = n * w ∧
      (mapChunks f n s l : Exec ε (List α × σ)) = .ok (r ++ l.drop (n * w), s') ∧
      (mapChunks g n s r : Exec ε (List α × σ)) = .ok (l.take (n * w), s') := by
  have hlen : (l.take (n * w)).length = n * w := by rw [List.length_take]; omega
  obtain ⟨r, s', hf, hr, hg⟩ := mapChunks_cancel (ε := ε) hgf n s (l := l.take (n * w)) hlen.ge
  have happend := mapChunks_append (ε := ε) (f := f) n s (l.drop (n * w)) hlen.ge
  rw [List.take_append_drop, hf, ok_bind] at happend
  exact ⟨r, s', hr.trans hlen, happend, hg⟩

end Chunks

/-- A loop that is undone turn by turn is undone by the loop that runs backwards. -/
lemma foldl_reverse_cancel {f g : α → β → α} {l : List β} (hgf : ∀ x ∈ l, ∀ a, g (f a x) x = a)
    (a : α) : l.reverse.foldl g (l.foldl f a) = a := by
  induction l generalizing a with
  | nil => rfl
  | cons x l ih =>
    rw [List.foldl_cons, List.reverse_cons, List.foldl_append,
      ih (fun y hy => hgf y (by simp [hy]))]
    exact hgf x (by simp) a

/-! ## Loops over distinct blocks -/

variable {idx : β → ℕ} {f g : β → α → α}

/-- An update of an item the loop does not visit can be done before or after it. -/
lemma foldl_modify_comm {items : List β} {i : ℕ} (h : i ∉ items.map idx) (l : List α)
    (u : α → α) :
    items.foldl (fun l x => l.modify (idx x) (f x)) (l.modify i u) =
      (items.foldl (fun l x => l.modify (idx x) (f x)) l).modify i u := by
  induction items generalizing l with
  | nil => rfl
  | cons x xs ih =>
    rw [List.map_cons, List.mem_cons, not_or] at h
    rw [List.foldl_cons, List.foldl_cons, List.modify_modify_ne _ _ _ h.1, ih h.2]

/-- Two loops over the same distinct items cancel when they cancel at each item. -/
lemma foldl_modify_cancel {items : List β} (hnd : (items.map idx).Nodup)
    (hgf : ∀ x ∈ items, ∀ a, g x (f x a) = a) (l : List α) :
    items.foldl (fun l x => l.modify (idx x) (g x))
      (items.foldl (fun l x => l.modify (idx x) (f x)) l) = l := by
  induction items generalizing l with
  | nil => rfl
  | cons x xs ih =>
    rw [List.map_cons, List.nodup_cons] at hnd
    have hid : g x ∘ f x = id := funext (hgf x (by simp))
    rw [List.foldl_cons, List.foldl_cons, foldl_modify_comm hnd.1, foldl_modify_comm hnd.1,
      foldl_modify_comm hnd.1, List.modify_modify_eq, hid,
      ih hnd.2 fun y hy => hgf y (by simp [hy])]
    apply List.ext_getElem?
    intro j
    rw [List.getElem?_modify]
    simp

lemma length_foldl_modify (items : List β) (l : List α) :
    (items.foldl (fun l x => l.modify (idx x) (f x)) l).length = l.length := by
  induction items generalizing l with
  | nil => rfl
  | cons x xs ih => rw [List.foldl_cons, ih, List.length_modify]

end Blocks
end RemoteClient
