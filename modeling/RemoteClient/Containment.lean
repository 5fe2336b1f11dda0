/-
# What the app proxy reaches

The prefix is compared with the path as it came.  The service that gets the request removes the
dot segments of the path first, and some of them may lead out of the prefix: `Contained` are the
paths that come back to it, and exactly these stay below the prefix (`forwarded_inside_iff`).
-/
import RemoteClient.Forwarding
import RemoteClient.Lib.DotSegments

namespace RemoteClient
namespace AppProxy

open DotSegments

/-! ## The directory of a prefix -/

namespace Prefix

/-- The segments between the slashes of a prefix. -/
def segments (start : Prefix) : List Str := (start.1.drop 1).dropLast.splitOn '/'

variable (start : Prefix)

lemma chars {c : Char} (hc : c ∈ start.1) : c.isAlphanum ∨ c = '/' ∨ c = '_' ∨ c = '-' := by
  have hvalid := start.2
  simp only [validPrefix, Bool.and_eq_true] at hvalid
  have hall := List.all_eq_true.mp hvalid.1.2 c hc
  simpa only [Bool.or_eq_true, decide_eq_true_eq, or_assoc] using hall

/-- A prefix starts and ends with a slash, and these are two. -/
lemma eq_slashes : ∃ middle, start.1 = '/' :: (middle ++ ['/']) := by
  have hvalid := start.2
  simp only [validPrefix, Bool.and_eq_true, decide_eq_true_eq] at hvalid
  obtain ⟨⟨⟨⟨⟨⟨hlength, -⟩, hhead⟩, hlast⟩, -⟩, -⟩, -⟩ := hvalid
  obtain ⟨rest, hrest⟩ := List.head?_eq_some_iff.mp hhead
  rcases List.eq_nil_or_concat rest with rfl | ⟨middle, last, rfl⟩
  · rw [hrest] at hlength
    exact absurd hlength (by decide)
  · rw [hrest, List.concat_eq_append, ← List.cons_append, List.getLast?_concat] at hlast
    refine ⟨middle, ?_⟩
    rw [hrest, List.concat_eq_append, Option.some.inj hlast]

lemma eq_join : start.1 = join start.segments ++ ['/'] := by
  obtain ⟨middle, hmiddle⟩ := start.eq_slashes
  have hsegments : start.segments = middle.splitOn '/' := by
    rw [segments, hmiddle, List.drop_one, List.tail_cons, List.dropLast_concat]
  have hjoin : ∀ parts : List Str, parts ≠ [] → join parts = '/' :: ['/'].intercalate parts := by
    intro parts hne
    induction parts with
    | nil => exact absurd rfl hne
    | cons part parts ih =>
      cases parts with
      | nil => simp [join]
      | cons next parts => rw [join_cons, ih (List.cons_ne_nil _ _), List.intercalate_cons_cons,
          List.append_assoc, List.singleton_append]
  rw [hsegments, hjoin _ (List.splitOn_ne_nil _ _), List.intercalate_splitOn, hmiddle]
  rfl

/-- The segments are names, without anything to remove or to decode. -/
lemma plain : ∀ s ∈ start.segments, DotSegments.Plain s := by
  intro s hs
  obtain ⟨hslash, hsub⟩ := Text.splitOn_spec hs
  have hchar : ∀ c ∈ s, c.isAlphanum ∨ c = '/' ∨ c = '_' ∨ c = '-' := fun c hc =>
    start.chars (List.drop_subset _ _ (List.dropLast_subset _ (hsub hc)))
  have hdot : '.' ∉ s := fun h => absurd (hchar _ h) (by decide)
  refine ⟨hslash, fun h => absurd (hchar _ h) (by decide), fun h => absurd (hchar _ h) (by decide), ?_⟩
  rw [Move.ofSegment, if_neg, if_neg]
  · rintro rfl
    exact hdot (by simp)
  · rintro rfl
    exact hdot (by simp)

end Prefix

/-! ## Paths that stay below it -/

/-- Followed from the prefix on, with `..` going up and every other segment going down, the path
ends below the prefix: where it leaves the prefix, it enters it again by the prefix's own
segments. -/
def Contained (start : Prefix) (path : Str) : Prop :=
  (depth start.segments (path.drop start.1.length)).1 = start.segments.length ∧
    0 < (depth start.segments (path.drop start.1.length)).2

instance (start : Prefix) (path : Str) : Decidable (Contained start path) :=
  inferInstanceAs (Decidable (_ ∧ _))

/-- **What is forwarded under a prefix stays below it** exactly when its dot segments do not
lead out of the prefix for good. -/
theorem forwarded_inside_iff (build : Build) (start : Prefix) (port : Str) (r : Request)
    (target : Target) (h : (forward build (some (start, port)) r target).1 ≠ []) :
    start.1 <+: normalize r.path ↔ Contained start r.path := by
  obtain ⟨body, hforwards⟩ := (relay_writes build r target (start.1.isPrefixOf ·)
    maxRequestBody (by decide) "The app").forwards h
  obtain ⟨rest, hrest⟩ := List.isPrefixOf_iff_prefix.mp hforwards.allowed
  rw [Contained, ← hrest, List.drop_left, ← normalize_below_iff start.plain, ← start.eq_join,
    List.append_cons, ← start.eq_join]

theorem forwarded_inside_sample : appPrefix.1 <+: normalize (postTo "/_app/a/../b").path ↔
    Contained appPrefix (postTo "/_app/a/../b").path :=
  forwarded_inside_iff .release appPrefix [] (postTo "/_app/a/../b") openTarget (by decide)

/-- A path out of the prefix is forwarded. -/
theorem forwarded_outside :
    (forward .release (some (appPrefix, [])) (postTo "/_app/../admin") openTarget).1 ≠ [] ∧
    normalize (postTo "/_app/../admin").path = "/admin".toList ∧
    ¬appPrefix.1 <+: normalize (postTo "/_app/../admin").path := by
  refine ⟨by decide, by decide, by decide⟩

end AppProxy
end RemoteClient
