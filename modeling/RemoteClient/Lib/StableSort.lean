/-
# Sorting by a key

`sortByKey` sorts by a key and keeps the order of elements with the same key.  Two arrangements
of the same elements sort to the same list when no two of them have the same key.
-/
import Mathlib.Data.List.Sort

namespace RemoteClient
namespace StableSort

variable {α β κ : Type} [LinearOrder κ] (key : α → κ)

/-- The elements by their keys, the first ones first where keys are the same. -/
def sortByKey (l : List α) : List α := l.insertionSort fun a b => key a ≤ key b

variable {key} {l l' : List α}

lemma sortByKey_perm (key : α → κ) (l : List α) : (sortByKey key l).Perm l :=
  List.perm_insertionSort _ l

lemma sortByKey_pairwise (key : α → κ) (l : List α) :
    (sortByKey key l).Pairwise fun a b => key a ≤ key b := by
  have htotal : Std.Total fun a b : α => key a ≤ key b := ⟨fun a b => le_total _ _⟩
  have htrans : IsTrans α fun a b => key a ≤ key b := ⟨fun _ _ _ => le_trans⟩
  exact List.pairwise_insertionSort _ l

/-- Elements that are in order already stay in order. -/
lemma filter_sortByKey {p : α → Bool} (h : (l.filter p).Pairwise fun a b => key a ≤ key b) :
    (sortByKey key l).filter p = l.filter p := by
  have hsub : (l.filter p).Sublist (sortByKey key l) :=
    List.sublist_insertionSort h List.filter_sublist
  have hkept : (l.filter p).Sublist ((sortByKey key l).filter p) := by
    have hfilter := hsub.filter p
    simpa only [List.filter_filter, Bool.and_self] using hfilter
  exact (hkept.eq_of_length ((sortByKey_perm key l).filter p).length_eq.symm).symm

/-- Where the elements came from makes no difference to the order. -/
lemma sortByKey_map (f : β → α) (l : List β) :
    sortByKey key (l.map f) = (sortByKey (fun b => key (f b)) l).map f :=
  (List.map_insertionSort _ _ f l fun _ _ _ _ => Iff.rfl).symm

/-- Elements with keys of their own have one order. -/
lemma eq_of_perm_of_pairwise (hperm : l.Perm l') (hnodup : (l.map key).Nodup)
    (hl : l.Pairwise fun a b => key a ≤ key b) (hl' : l'.Pairwise fun a b => key a ≤ key b) :
    l = l' := by
  refine hperm.eq_of_pairwise (fun a b ha hb hab hba => ?_) hl hl'
  exact List.inj_on_of_nodup_map hnodup ha (hperm.mem_iff.mpr hb) (le_antisymm hab hba)

end StableSort
end RemoteClient
