import Mathlib.Tactic.Choose
import Numbering.Proofs.Positions
import Numbering.Proofs.ZeroMarkers

/-! How many markers stand side by side. A search takes, in place of any marker it wants, one that starts no
later and ends no later, because no marker stands inside another. So it takes as many as can be chosen without
overlap, though the searches for all markers and for zero markers may choose different places. -/

namespace Numbering

namespace Label

variable {P : Label} {wanted : Argument → Bool} {t : Text} {places : List Site}

/-- Markers of the text of which no two overlap, in any order. -/
structure Packing (P : Label) (t : Text) (places : List Site) : Prop where
  stands : ∀ s ∈ places, P.Stands t s
  apart : places.Pairwise fun s s' => s.stop ≤ s'.offset ∨ s'.stop ≤ s.offset

theorem Packing.sublist {fewer : List Site} (h : P.Packing t places) (sub : fewer.Sublist places) :
    P.Packing t fewer :=
  ⟨fun s mem => h.stands s (sub.subset mem), h.apart.sublist sub⟩

theorem packing_hits : P.Packing t (P.hits wanted t) :=
  ⟨fun _ mem => (stands_of_mem_hits mem).1, (pairwise_sitesFrom _ _).imp fun behind => .inl behind.1⟩

/-! ### Exchange -/

/-- In place of a wanted marker the search takes one that starts no later and ends no later. -/
theorem exists_hit {s : Site} (stands : P.Stands t s) (hw : ∀ a, s.argument = a.digits → wanted a) :
    ∃ r ∈ P.hits wanted t, r.offset ≤ s.offset ∧ s.offset < r.stop ∧ r.stop ≤ s.stop := by
  obtain ⟨a, text, argument, occurs⟩ := stands.occurs
  obtain ⟨r, mem, le, inside⟩ := covers_hits (hw a argument) occurs
  refine ⟨r, mem, le, inside, ?_⟩
  have taken : P.Stands t r := (stands_of_mem_hits mem).1
  rcases Nat.lt_or_eq_of_le le with lt | same
  · obtain ⟨b, text', -, occurs'⟩ := taken.occurs
    rw [Site.stop, Site.stop, text, text']
    exact Nat.le_of_lt (occurs'.stop_lt occurs lt)
  · exact Nat.le_of_eq (congrArg Site.stop (taken.eq stands same))

/-- No choice of wanted markers without overlap has more of them than the search takes. -/
theorem Packing.length_le (h : P.Packing t places)
    (hw : ∀ s ∈ places, ∀ a, s.argument = a.digits → wanted a) :
    places.length ≤ (P.hits wanted t).length := by
  have : Nonempty Site := ⟨⟨.start, [], []⟩⟩
  choose! taken mem le inside stop using fun s (hs : s ∈ places) => exists_hit (h.stands s hs) (hw s hs)
  have distinct : (places.map taken).Nodup := by
    rw [List.Nodup, List.pairwise_map]
    refine h.apart.imp_of_mem fun {s s'} hs hs' apart same => ?_
    -- the marker taken for both would reach from the one to the other
    have starts := inside s hs
    have stops := stop s hs
    rw [same] at starts stops
    have starts' := inside s' hs'
    have stops' := stop s' hs'
    omega
  have subset : places.map taken ⊆ P.hits wanted t := by
    intro r hr
    obtain ⟨s, hs, rfl⟩ := List.mem_map.1 hr
    exact mem s hs
  simpa using distinct.length_le_of_subset subset

/-- So many markers of a kind stand in the text without overlap, and no more. -/
structure Most (P : Label) (t : Text) (kind : Site → Bool) (n : Nat) : Prop where
  attained : ∃ places, P.Packing t places ∧ (∀ s ∈ places, kind s) ∧ places.length = n
  largest : ∀ places, P.Packing t places → (∀ s ∈ places, kind s) → places.length ≤ n

theorem most_hits {kind : Site → Bool} (same : ∀ s a, s.argument = a.digits → kind s = wanted a) (t : Text) :
    P.Most t kind (P.hits wanted t).length where
  attained := by
    refine ⟨P.hits wanted t, packing_hits, fun s mem => ?_, rfl⟩
    obtain ⟨-, a, ha, argument⟩ := stands_of_mem_hits mem
    rwa [same s a argument]
  largest places h hk := h.length_le fun s mem a argument => same s a argument ▸ hk s mem

theorem most_sites (P : Label) (t : Text) : P.Most t (fun _ => true) (P.sites t).length :=
  most_hits (fun _ _ _ => rfl) t

theorem most_zeros (P : Label) (t : Text) : P.Most t Site.isZero (P.enumerate t).matched := by
  have zeros : P.Most t Site.isZero (P.hits Argument.isZero t).length := by
    refine most_hits (fun s a argument => ?_) t
    have zero := isZero_site s.toPosition s.text a
    rwa [← argument] at zero
  rwa [length_hits] at zeros

/-! ### Counts and bytes -/

theorem count_mul_le_size (P : Label) (c : Cut) : c.count * (P.text.size + 3) ≤ (c.join P).size := by
  obtain ⟨parts, tail⟩ := c
  induction parts with
  | nil => simp [Cut.count]
  | cons p ps ih =>
    have marker := P.size_add_three_le p.argument
    simp only [Cut.count] at ih ⊢
    rw [List.length_cons, Nat.succ_mul, Cut.join_cons, Text.size_append, Text.size_append]
    omega

/-- The zero sites are at most as many as the enumerate pass replaces, and these at most as many as the sites,
which are those that the reset pass replaces. No more markers stand in the text without overlap than the sites,
and no more zero markers than the enumerate pass replaces; and as each takes its bytes of the text, a counter
that can hold the size of the text holds them all. -/
theorem counts_are_largest (P : Label) (t : Text) :
    (P.sites t).countP Site.isZero ≤ (P.enumerate t).matched ∧
      (P.enumerate t).matched ≤ (P.reset t).matched ∧ (P.reset t).matched = (P.sites t).length ∧
      P.Most t (fun _ => true) (P.sites t).length ∧ P.Most t Site.isZero (P.enumerate t).matched ∧
      (P.reset t).matched * (P.text.size + 3) ≤ t.size ∧
      (P.enumerate t).matched * (P.text.size + 3) ≤ t.size ∧
      ∀ limit, t.size < limit → (P.reset t).matched < limit ∧ (P.enumerate t).matched < limit := by
  have bytes (wanted : Argument → Bool) : (P.cut wanted t).count * (P.text.size + 3) ≤ t.size := by
    have := P.count_mul_le_size (P.cut wanted t)
    rwa [join_cut] at this
  have count_le (wanted : Argument → Bool) : (P.cut wanted t).count ≤ t.size :=
    Nat.le_trans (Nat.le_mul_of_pos_right _ (Nat.succ_pos _)) (bytes wanted)
  refine ⟨?_, ?_, (P.length_sites t).symm, P.most_sites t, P.most_zeros t, bytes _, bytes _,
    fun limit small => ⟨Nat.lt_of_le_of_lt (count_le _) small, Nat.lt_of_le_of_lt (count_le _) small⟩⟩
  · rw [List.countP_eq_length_filter]
    have zeros : P.Packing t ((P.sites t).filter Site.isZero) := packing_hits.sublist List.filter_sublist
    exact (P.most_zeros t).largest _ zeros fun s mem => (List.mem_filter.1 mem).2
  · have hits := (P.most_sites t).largest (P.hits Argument.isZero t) packing_hits fun _ _ => rfl
    rwa [length_hits, length_sites] at hits

/-- A zero marker that no site shows, because it starts inside one site and ends inside the next. -/
theorem counts_are_largest_overlapping :
    let P : Label := ⟨"0)".toList, by decide, by decide⟩
    let t : Text := "0)(0)0)(10)(0)(5)".toList
    let zeros : List Site := [⟨⟨9, 1⟩, "0)(0)".toList, ['0']⟩, ⟨⟨0, 1⟩, "0)(0)".toList, ['0']⟩]
    P.Packing t zeros ∧ (P.sites t).countP Site.isZero = 1 ∧ zeros.length ≤ (P.enumerate t).matched ∧
      t.size < 18 ∧ (P.reset t).matched < 18 := by
  intro P t zeros
  have packing : P.Packing t zeros := by
    refine ⟨List.forall_mem_cons.2 ⟨?_, List.forall_mem_singleton.2 ?_⟩, by decide⟩
    · exact ⟨"0)(0)0)(1".toList, "(5)".toList, .zero, by decide, by decide⟩
    · exact ⟨[], "0)(10)(0)(5)".toList, .zero, by decide, by decide⟩
  obtain ⟨-, -, -, -, most, -, -, counters⟩ := counts_are_largest P t
  have small : t.size < 18 := by decide
  exact ⟨packing, by decide +kernel, most.largest zeros packing (by decide), small, (counters 18 small).1⟩

end Label

end Numbering
