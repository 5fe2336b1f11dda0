/-
# Least recently used

The ideal cache: a list of items, the least recently used one first.  A hit moves its item
to the new end.  An insertion puts an item there after dropping the shortest old prefix that
makes room.  An item may also grow where it stands, at the cost of the oldest of the others.

What "the shortest prefix" means is `trim_shortest`, and `trim_trim` runs two ways of making
room one after the other.
-/
import Mathlib.Algebra.Order.BigOperators.Group.List
import Mathlib.Algebra.GroupWithZero.Nat
import Mathlib.Data.List.Nodup

namespace RemoteClient
namespace Lru

variable {α κ ν : Type}

/-! ## Dropping the shortest prefix -/

/-- Drop the shortest prefix whose absence makes the rest fit; everything if nothing does. -/
def trim (fits : List α → Prop) [DecidablePred fits] : List α → List α
  | [] => []
  | x :: l => if fits (x :: l) then x :: l else trim fits l

/-- A list that fits still fits without its first item. -/
def Hereditary (fits : List α → Prop) : Prop := ∀ x l, fits (x :: l) → fits l

section Trim

variable {p q : List α → Prop} [DecidablePred p] [DecidablePred q]

@[simp] lemma trim_nil : trim p [] = [] := rfl

lemma trim_of_fits {l : List α} (h : p l) : trim p l = l := by
  cases l with
  | nil => rfl
  | cons x l => exact if_pos h

lemma trim_cons_of_not {x : α} {l : List α} (h : ¬p (x :: l)) : trim p (x :: l) = trim p l :=
  if_neg h

lemma trim_suffix (l : List α) : trim p l <:+ l := by
  induction l with
  | nil => exact List.suffix_rfl
  | cons x l ih =>
    by_cases h : p (x :: l)
    · exact ⟨[], trim_of_fits h⟩
    · rw [trim_cons_of_not h]
      exact ih.trans (List.suffix_cons x l)

/-- What is left fits, or nothing is left. -/
lemma trim_fits (l : List α) : p (trim p l) ∨ trim p l = [] := by
  induction l with
  | nil => exact .inr rfl
  | cons x l ih =>
    by_cases h : p (x :: l)
    · rw [trim_of_fits h]
      exact .inl h
    · rw [trim_cons_of_not h]
      exact ih

/-- What is dropped had to go: with it, and with all that is newer, the list did not fit. -/
lemma trim_shortest {l pre post : List α} {x : α} (hl : l = pre ++ x :: post)
    (hx : (trim p l).length ≤ post.length) : ¬p (x :: post) := by
  induction pre generalizing l with
  | nil =>
    intro hfits
    rw [hl, List.nil_append, trim_of_fits hfits, List.length_cons] at hx
    omega
  | cons y pre ih =>
    by_cases h : p (y :: (pre ++ x :: post))
    · rw [hl, List.cons_append, trim_of_fits h] at hx
      simp only [List.length_cons, List.length_append] at hx
      omega
    · rw [hl, List.cons_append, trim_cons_of_not h] at hx
      exact ih rfl hx

/-- Two conditions can be met one after the other when the first is not lost on the way. -/
lemma trim_trim (hp : Hereditary p) (l : List α) :
    trim q (trim p l) = trim (fun l => p l ∧ q l) l := by
  have hsecond : ∀ l, p l → trim q l = trim (fun l => p l ∧ q l) l := by
    intro l
    induction l with
    | nil => exact fun _ => rfl
    | cons x l ih =>
      intro h
      by_cases hq : q (x :: l)
      · rw [trim_of_fits hq, trim_of_fits ⟨h, hq⟩]
      · rw [trim_cons_of_not hq, trim_cons_of_not fun hpq => hq hpq.2]
        exact ih (hp x l h)
  induction l with
  | nil => rfl
  | cons x l ih =>
    by_cases h : p (x :: l)
    · rw [trim_of_fits h]
      exact hsecond _ h
    · rw [trim_cons_of_not h, trim_cons_of_not fun hpq => h hpq.1]
      exact ih

/-- Trimming looks at a list through any view of its items. -/
lemma map_trim {β : Type} (f : β → α) (l : List β) :
    (trim (fun l => p (l.map f)) l).map f = trim p (l.map f) := by
  induction l with
  | nil => rfl
  | cons x l ih =>
    by_cases h : p ((x :: l).map f)
    · rw [trim_of_fits h, trim_of_fits (p := fun l => p (l.map f)) h]
    · rw [trim_cons_of_not (p := fun l => p (l.map f)) h, ih]
      exact (trim_cons_of_not h).symm

end Trim

/-! ## Lists with distinct keys -/

section Keys

variable [DecidableEq κ] {keyOf : α → κ} {l kept : List α} {x : α}

/-- The item of a key and the others make up the list. -/
lemma perm_filter_ne (hnodup : (l.map keyOf).Nodup) (hx : x ∈ l) :
    (x :: l.filter fun y => keyOf y ≠ keyOf x).Perm l := by
  have hfilter : (l.filter fun y => decide (keyOf y = keyOf x)) = [x] := by
    refine List.perm_singleton.mp ((List.perm_ext_iff_of_nodup ?_ (List.nodup_singleton _)).mpr ?_)
    · exact (List.Nodup.of_map keyOf hnodup).filter _
    · intro y
      rw [List.mem_filter, List.mem_singleton, decide_eq_true_eq]
      constructor
      · rintro ⟨hy, hkey⟩
        exact List.inj_on_of_nodup_map hnodup hy hx hkey
      · rintro rfl
        exact ⟨hx, rfl⟩
  have hsplit := List.filter_append_perm (fun y => decide (keyOf y = keyOf x)) l
  rw [hfilter] at hsplit
  simpa using hsplit

/-- Change one item and keep some of the others, all where they are: what stays is the
changed item and the kept ones. -/
lemma perm_map_filter (g : α → α) (hnodup : (l.map keyOf).Nodup) (hx : x ∈ l)
    (hkept : kept <:+ l.filter fun y => keyOf y ≠ keyOf x) :
    ((l.filter fun y => keyOf y = keyOf x ∨ ∃ z ∈ kept, keyOf z = keyOf y).map fun y =>
      if keyOf y = keyOf x then g y else y).Perm (g x :: kept) := by
  have hne : ∀ y ∈ l.filter fun y => keyOf y ≠ keyOf x, keyOf y ≠ keyOf x := fun y hy =>
    of_decide_eq_true (List.mem_filter.mp hy).2
  have hothers : ((l.filter fun y => keyOf y ≠ keyOf x).map keyOf).Nodup :=
    hnodup.sublist (List.filter_sublist.map keyOf)
  -- Among the others, those with a kept key are the kept ones.
  have hfilter : ((l.filter fun y => keyOf y ≠ keyOf x).filter fun y =>
      decide (keyOf y = keyOf x ∨ ∃ z ∈ kept, keyOf z = keyOf y)).Perm kept := by
    have hnodup' := List.Nodup.of_map keyOf hothers
    refine (List.perm_ext_iff_of_nodup (hnodup'.filter _) (hnodup'.sublist hkept.sublist)).mpr ?_
    intro y
    rw [List.mem_filter, decide_eq_true_eq]
    constructor
    · rintro ⟨hy, hkey | ⟨z, hz, heq⟩⟩
      · exact absurd hkey (hne y hy)
      · rw [List.inj_on_of_nodup_map hothers hy (hkept.subset hz) heq.symm]
        exact hz
    · exact fun hy => ⟨hkept.subset hy, .inr ⟨y, hy, rfl⟩⟩
  have hsame : ∀ y ∈ kept, (if keyOf y = keyOf x then g y else y) = id y := fun y hy =>
    if_neg (hne y (hkept.subset hy))
  have hstart := (((perm_filter_ne hnodup hx).symm.filter fun y =>
    decide (keyOf y = keyOf x ∨ ∃ z ∈ kept, keyOf z = keyOf y)).map
      fun y => if keyOf y = keyOf x then g y else y)
  rw [List.filter_cons_of_pos (by simp), List.map_cons, if_pos rfl] at hstart
  have hrest := hfilter.map fun y => if keyOf y = keyOf x then g y else y
  rw [List.map_congr_left hsame, List.map_id] at hrest
  exact hstart.trans (hrest.cons _)

end Keys

/-! ## Items and limits -/

/-- A cached value under its key, with the bytes it takes. -/
structure Item (κ ν : Type) where
  key : κ
  value : ν
  size : ℕ
deriving DecidableEq

/-- The bytes of a list of items. -/
def total (l : List (Item κ ν)) : ℕ := (l.map Item.size).sum

@[simp] lemma total_nil : total ([] : List (Item κ ν)) = 0 := rfl

@[simp] lemma total_cons (it : Item κ ν) (l : List (Item κ ν)) :
    total (it :: l) = it.size + total l := rfl

@[simp] lemma total_append (l m : List (Item κ ν)) : total (l ++ m) = total l + total m := by
  simp [total]

lemma total_perm {l m : List (Item κ ν)} (h : l.Perm m) : total l = total m :=
  (h.map Item.size).sum_eq

/-- How many items there may be, and how many bytes. -/
structure Limits where
  maxSize : ℕ
  budget : ℕ

/-- There is room for one more item of `size` bytes. -/
def Limits.HasRoom (lim : Limits) (size : ℕ) (l : List (Item κ ν)) : Prop :=
  l.length < lim.maxSize ∧ total l + size ≤ lim.budget

/-- There is room for `size` more bytes. -/
def Limits.HasBytes (lim : Limits) (size : ℕ) (l : List (Item κ ν)) : Prop :=
  total l + size ≤ lim.budget

instance (lim : Limits) (size : ℕ) (l : List (Item κ ν)) : Decidable (lim.HasRoom size l) :=
  inferInstanceAs (Decidable (_ ∧ _))

instance (lim : Limits) (size : ℕ) (l : List (Item κ ν)) : Decidable (lim.HasBytes size l) :=
  inferInstanceAs (Decidable (_ ≤ _))

/-! ## The operations -/

section Operations

variable [DecidableEq κ]

/-- The items under another key. -/
def others (key : κ) (l : List (Item κ ν)) : List (Item κ ν) := l.filter fun it => it.key ≠ key

/-- Move the item of a key to the new end. -/
def hit (key : κ) (l : List (Item κ ν)) : List (Item κ ν) :=
  match l.find? fun it => it.key = key with
  | none => l
  | some it => others key l ++ [it]

/-- Put an item at the new end, in place of any other under its key, and make room for it. -/
def insert (lim : Limits) (it : Item κ ν) (l : List (Item κ ν)) : List (Item κ ν) :=
  trim (lim.HasRoom it.size) (others it.key l) ++ [it]

/-- Add bytes to the item of a key where it stands, and make room for it among the others. -/
def grow (lim : Limits) (key : κ) (bytes : ℕ) (l : List (Item κ ν)) : List (Item κ ν) :=
  match l.find? fun it => it.key = key with
  | none => l
  | some it =>
    let kept := trim (lim.HasBytes (it.size + bytes)) (others key l)
    (l.filter fun x => x.key = key ∨ ∃ y ∈ kept, y.key = x.key).map fun x =>
      if x.key = key then { x with size := x.size + bytes } else x

/-! ### What is kept, and how much it takes -/

lemma mem_others {key : κ} {l : List (Item κ ν)} {it : Item κ ν} :
    it ∈ others key l ↔ it ∈ l ∧ it.key ≠ key := by
  rw [others, List.mem_filter, decide_eq_true_eq]

lemma find?_key {key : κ} {l : List (Item κ ν)} {it : Item κ ν}
    (h : (l.find? fun it => it.key = key) = some it) : it ∈ l ∧ it.key = key := by
  have hpred := List.find?_some h
  exact ⟨List.mem_of_find?_eq_some h, of_decide_eq_true hpred⟩

/-- The keys stay distinct, and the items stay the same. -/
lemma hit_perm (key : κ) {l : List (Item κ ν)} (hnodup : (l.map Item.key).Nodup) :
    (hit key l).Perm l := by
  unfold hit
  split
  · exact List.Perm.refl l
  · next it h =>
    obtain ⟨hmem, rfl⟩ := find?_key h
    exact (List.perm_append_singleton it _).trans (perm_filter_ne hnodup hmem)

lemma find?_of_mem {l : List (Item κ ν)} (hnodup : (l.map Item.key).Nodup) {it : Item κ ν}
    (hmem : it ∈ l) : (l.find? fun x => x.key = it.key) = some it := by
  obtain ⟨x, hx⟩ : ∃ x, (l.find? fun x => x.key = it.key) = some x := by
    rw [← Option.isSome_iff_exists, List.find?_isSome]
    exact ⟨it, hmem, decide_eq_true rfl⟩
  obtain ⟨hxmem, hxkey⟩ := find?_key hx
  rw [hx, List.inj_on_of_nodup_map hnodup hxmem hmem hxkey]

lemma mem_trim_others (fits : List (Item κ ν) → Prop) [DecidablePred fits] (key : κ)
    (l : List (Item κ ν)) : ∀ it ∈ trim fits (others key l), it ∈ l ∧ it.key ≠ key :=
  fun _ hit => mem_others.mp ((trim_suffix _).subset hit)

lemma others_sublist (key : κ) (l : List (Item κ ν)) : (others key l).Sublist l :=
  List.filter_sublist

lemma total_others_le (key : κ) (l : List (Item κ ν)) : total (others key l) ≤ total l := by
  induction l with
  | nil => exact le_rfl
  | cons x l ih =>
    rw [others, List.filter_cons, ← others]
    split <;> simp only [total_cons] <;> omega

lemma find?_others_self (key : κ) (l : List (Item κ ν)) :
    ((others key l).find? fun x => x.key = key) = none :=
  List.find?_eq_none.mpr fun _ hx heq => (mem_others.mp hx).2 (of_decide_eq_true heq)

lemma find?_others_of_ne {key key' : κ} (hne : key' ≠ key) (l : List (Item κ ν)) :
    ((others key' l).find? fun x => x.key = key) = l.find? fun x => x.key = key := by
  induction l with
  | nil => rfl
  | cons x l ih =>
    rw [others, List.filter_cons, ← others, List.find?_cons]
    by_cases hx : x.key = key'
    · have hkey : x.key ≠ key := fun heq => hne (hx.symm.trans heq)
      rw [if_neg (by simp [hx]), ih]
      simp [hkey]
    · rw [if_pos (by simp [hx]), List.find?_cons, ih]

/-- Nothing goes for an item that there is room for. -/
lemma insert_of_room {lim : Limits} {it : Item κ ν} {l : List (Item κ ν)}
    (h : lim.HasRoom it.size l) : insert lim it l = others it.key l ++ [it] := by
  have hroom : lim.HasRoom it.size (others it.key l) :=
    ⟨(others_sublist it.key l).length_le.trans_lt h.1,
      (Nat.add_le_add_right (total_others_le it.key l) _).trans h.2⟩
  rw [insert, trim_of_fits hroom]

/-- Then the other keys are left alone. -/
lemma find?_insert_of_room {lim : Limits} {it : Item κ ν} {l : List (Item κ ν)}
    (h : lim.HasRoom it.size l) (key : κ) :
    ((insert lim it l).find? fun x => x.key = key) =
      if it.key = key then some it else l.find? fun x => x.key = key := by
  rw [insert_of_room h, List.find?_append]
  split
  · next heq =>
    subst heq
    rw [find?_others_self, Option.none_or, List.find?_singleton, if_pos (decide_eq_true rfl)]
  · next hne =>
    rw [find?_others_of_ne hne, List.find?_singleton, if_neg (by simpa using hne), Option.or_none]

/-- Growing keeps the grown item and the others that are left, in some order. -/
lemma grow_perm (lim : Limits) {key : κ} (bytes : ℕ) {l : List (Item κ ν)}
    (hnodup : (l.map Item.key).Nodup) {it : Item κ ν} (hmem : it ∈ l) (hkey : it.key = key) :
    (grow lim key bytes l).Perm ({ it with size := it.size + bytes } ::
      trim (lim.HasBytes (it.size + bytes)) (others key l)) := by
  subst hkey
  rw [grow, find?_of_mem hnodup hmem]
  exact perm_map_filter (fun x : Item κ ν => { x with size := x.size + bytes }) hnodup hmem
    (trim_suffix (others it.key l))

/-- An item that is in the cache after it grew was there before. -/
lemma mem_grow {lim : Limits} {key : κ} {bytes : ℕ} {l : List (Item κ ν)}
    (hnodup : (l.map Item.key).Nodup) {it : Item κ ν} (h : it ∈ grow lim key bytes l) :
    it ∈ l ∧ it.key ≠ key ∨
      ∃ old ∈ l, old.key = key ∧ it = { old with size := old.size + bytes } := by
  by_cases hkey : ∃ old ∈ l, old.key = key
  · obtain ⟨old, hold, hkey⟩ := hkey
    rcases List.mem_cons.mp ((grow_perm lim bytes hnodup hold hkey).subset h) with rfl | hin
    · exact .inr ⟨old, hold, hkey, rfl⟩
    · exact .inl (mem_trim_others _ _ _ it hin)
  · have hnone : (l.find? fun it => it.key = key) = none :=
      List.find?_eq_none.mpr fun x hx hx' => hkey ⟨x, hx, of_decide_eq_true hx'⟩
    rw [grow, hnone] at h
    exact .inl ⟨h, fun heq => hkey ⟨it, h, heq⟩⟩

/-- No item leaves, other than the one under `key`, while the limits would hold with it. -/
def NoNeedlessVictim (fits : List (Item κ ν) → Prop) (key : κ)
    (before after : List (Item κ ν)) : Prop :=
  ∀ pre it post, others key before = pre ++ it :: post →
    it.key ∉ after.map Item.key → ¬fits (it :: post)

/-- What trimming leaves holds everything newer than what it holds. -/
lemma mem_trim_of_length {fits : List α → Prop} [DecidablePred fits] {l pre post : List α} {x : α}
    (hl : l = pre ++ x :: post) (hlen : post.length < (trim fits l).length) : x ∈ trim fits l := by
  have hsuffix : x :: post <:+ l := by
    rw [hl]
    exact List.suffix_append pre (x :: post)
  exact (List.suffix_of_suffix_length_le hsuffix (trim_suffix l) hlen).subset
    List.mem_cons_self

lemma noNeedlessVictim_of_trim {fits : List (Item κ ν) → Prop} [DecidablePred fits] {key : κ}
    {before after : List (Item κ ν)}
    (hafter : ∀ it ∈ trim fits (others key before), it.key ∈ after.map Item.key) :
    NoNeedlessVictim fits key before after := by
  intro pre it post hothers hgone
  refine trim_shortest hothers ?_
  by_contra hlen
  exact hgone (hafter it (mem_trim_of_length hothers (by omega)))

lemma insert_noNeedlessVictim (lim : Limits) (it : Item κ ν) (l : List (Item κ ν)) :
    NoNeedlessVictim (lim.HasRoom it.size) it.key l (insert lim it l) := by
  refine noNeedlessVictim_of_trim fun x hx => ?_
  rw [insert, List.map_append]
  exact List.mem_append_left _ (List.mem_map_of_mem hx)

/-- Growing keeps the item that grows. -/
lemma key_mem_grow (lim : Limits) {key : κ} (bytes : ℕ) {l : List (Item κ ν)}
    (h : key ∈ l.map Item.key) : key ∈ (grow lim key bytes l).map Item.key := by
  obtain ⟨it, hit, hkey⟩ := List.mem_map.mp h
  unfold grow
  split
  · exact h
  · refine List.mem_map.mpr ⟨{ it with size := it.size + bytes }, ?_, hkey⟩
    refine List.mem_map.mpr ⟨it, ?_, if_pos hkey⟩
    exact List.mem_filter.mpr ⟨hit, by simp [hkey]⟩

lemma grow_noNeedlessVictim (lim : Limits) {key : κ} (bytes : ℕ) {l : List (Item κ ν)}
    {it : Item κ ν} (hfind : (l.find? fun it => it.key = key) = some it) :
    NoNeedlessVictim (lim.HasBytes (it.size + bytes)) key l (grow lim key bytes l) := by
  refine noNeedlessVictim_of_trim fun x hx => ?_
  have hothers := (trim_suffix _).subset hx
  obtain ⟨hmem, hne⟩ := List.mem_filter.mp hothers
  have hkey : x.key ≠ key := of_decide_eq_true hne
  rw [grow, hfind]
  refine List.mem_map.mpr ⟨x, List.mem_map.mpr ⟨x, ?_, if_neg hkey⟩, rfl⟩
  exact List.mem_filter.mpr ⟨hmem, decide_eq_true (.inr ⟨x, hx, rfl⟩)⟩

end Operations

end Lru
end RemoteClient
