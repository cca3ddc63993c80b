import Mathlib.Data.List.Induction
import ModWeave.Proofs.Tree.Attachment

/-! Siblings of which some share a signature: each signature keeps its last node, at the place of its
first. That is what becomes of children that are inserted one by one. -/
namespace ModWeave

/-- One node for each signature: the last one, in order of the first ones. -/
def latest (ns : List Node) : List Node :=
  (ns.map Node.signature).eraseDups.filterMap fun sig => (ns.filter (·.signature == sig)).getLast?

/-- A node in the place of the one under its signature. -/
def Node.superseding (n : Node) (ns : List Node) : List Node :=
  ns.map fun x => if x.signature = n.signature then n else x

section Latest

variable {ns : List Node} {n x : Node} {sig : String}

theorem mem_of_mem_latest (h : x ∈ latest ns) : x ∈ ns := by
  obtain ⟨sig, -, hx⟩ := List.mem_filterMap.mp h
  exact List.mem_of_mem_filter (List.mem_of_getLast? hx)

private theorem getLast?_filter_concat (sig : String) :
    ((ns ++ [n]).filter (·.signature == sig)).getLast? =
      if n.signature = sig then some n else (ns.filter (·.signature == sig)).getLast? := by
  rw [List.filter_append]
  by_cases h : n.signature = sig
  · simp [h]
  · simp [h]

private theorem eraseDups_concat (sigs : List String) (sig : String) :
    (sigs ++ [sig]).eraseDups = if sig ∈ sigs then sigs.eraseDups else sigs.eraseDups ++ [sig] := by
  rw [List.eraseDups_append]
  split
  · rename_i h
    simp [List.removeAll, h]
  · rename_i h
    simp [List.removeAll, h, List.eraseDups_cons]

private theorem exists_last (h : sig ∈ ns.map Node.signature) :
    ∃ x, (ns.filter (·.signature == sig)).getLast? = some x := by
  obtain ⟨m, hm, rfl⟩ := List.mem_map.mp h
  have hne : ns.filter (·.signature == m.signature) ≠ [] :=
    List.ne_nil_of_mem (List.mem_filter.mpr ⟨hm, by simp⟩)
  exact ⟨_, List.getLast?_eq_some_getLast hne⟩

private theorem signature_of_getLast? (h : (ns.filter (·.signature == sig)).getLast? = some x) :
    x.signature = sig := by
  have := (List.mem_filter.mp (List.mem_of_getLast? h)).2
  simpa using this

theorem latest_concat_of_not_mem (h : n.signature ∉ ns.map Node.signature) :
    latest (ns ++ [n]) = latest ns ++ [n] := by
  rw [latest, List.map_append, List.map_singleton, eraseDups_concat, if_neg h, List.filterMap_append,
    latest]
  congr 1
  · refine List.filterMap_congr fun sig hsig => ?_
    rw [getLast?_filter_concat, if_neg]
    rintro rfl
    exact h (List.mem_eraseDups.mp hsig)
  · simp

theorem latest_concat_of_mem (h : n.signature ∈ ns.map Node.signature) :
    latest (ns ++ [n]) = n.superseding (latest ns) := by
  rw [latest, List.map_append, List.map_singleton, eraseDups_concat, if_pos h, Node.superseding, latest,
    List.map_filterMap]
  refine List.filterMap_congr fun sig hsig => ?_
  obtain ⟨y, hy⟩ := exists_last (List.mem_eraseDups.mp hsig)
  rw [getLast?_filter_concat, hy, Option.map_some, signature_of_getLast? hy]
  simp only [eq_comm (a := n.signature)]
  split <;> rfl

theorem mem_signatures_latest : sig ∈ (latest ns).map Node.signature ↔ sig ∈ ns.map Node.signature := by
  constructor
  · intro h
    obtain ⟨x, hx, rfl⟩ := List.mem_map.mp h
    exact List.mem_map_of_mem (mem_of_mem_latest hx)
  · intro h
    obtain ⟨x, hx⟩ := exists_last h
    exact List.mem_map.mpr ⟨x, List.mem_filterMap.mpr ⟨sig, List.mem_eraseDups.mpr h, hx⟩,
      signature_of_getLast? hx⟩

/-- Signatures may be changed first, as long as they stay apart. -/
theorem latest_map {f : Node → Node}
    (hf : ∀ x ∈ ns, ∀ y ∈ ns, (f x).signature = (f y).signature ↔ x.signature = y.signature) :
    latest (ns.map f) = (latest ns).map f := by
  induction ns using List.reverseRecOn with
  | nil => rfl
  | append_singleton ns n ih =>
    have hmem : n ∈ ns ++ [n] := by simp
    have ih := ih fun x hx y hy => hf x (List.mem_append_left _ hx) y (List.mem_append_left _ hy)
    have hiff : (f n).signature ∈ (ns.map f).map Node.signature ↔ n.signature ∈ ns.map Node.signature := by
      simp only [List.mem_map, exists_exists_and_eq_and]
      refine exists_congr fun x => and_congr_right fun hx => ?_
      exact hf x (List.mem_append_left _ hx) n hmem
    rw [List.map_append, List.map_singleton]
    by_cases h : n.signature ∈ ns.map Node.signature
    · rw [latest_concat_of_mem h, latest_concat_of_mem (hiff.mpr h), ih, Node.superseding,
        Node.superseding, List.map_map, List.map_map]
      refine List.map_congr_left fun x hx => ?_
      have hx := hf x (List.mem_append_left _ (mem_of_mem_latest hx)) n hmem
      simp only [Function.comp_apply, hx]
      split <;> rfl
    · rw [latest_concat_of_not_mem h, latest_concat_of_not_mem (mt hiff.mp h), ih, List.map_append,
        List.map_singleton]

/-- So may one signature alone, to one that is not there. -/
theorem latest_rename {source target : String} (h : target ∉ ns.map Node.signature) :
    latest (ns.map fun x => if x.signature = source then x.resign target else x) =
      (latest ns).map fun x => if x.signature = source then x.resign target else x := by
  refine latest_map fun x hx y hy => ?_
  have hxt : x.signature ≠ target := fun he => h (he ▸ List.mem_map_of_mem hx)
  have hyt : y.signature ≠ target := fun he => h (he ▸ List.mem_map_of_mem hy)
  split <;> split <;> simp_all [eq_comm]

/-- Nodes that share their signatures with no others are all kept. -/
theorem filter_latest {p : Node → Bool}
    (h : ns.Pairwise fun x y => p x = true ∨ p y = true → x.signature ≠ y.signature) :
    (latest ns).filter p = ns.filter p := by
  induction ns using List.reverseRecOn with
  | nil => rfl
  | append_singleton ns n ih =>
    obtain ⟨hpairwise, -, hlast⟩ := List.pairwise_append.mp h
    have ih := ih hpairwise
    by_cases hn : n.signature ∈ ns.map Node.signature
    · have hdrop (x : Node) (hx : x ∈ ns) (hsig : x.signature = n.signature) : p x = false ∧ p n = false := by
        have := fun hp => hlast x hx n (by simp) hp hsig
        simpa using this
      obtain ⟨m, hm, hsig⟩ := List.mem_map.mp hn
      have hpn := (hdrop m hm hsig).2
      rw [latest_concat_of_mem hn, List.filter_append, ← ih, Node.superseding, List.filter_map]
      have hp : ∀ x ∈ latest ns, (p ∘ fun x => if x.signature = n.signature then n else x) x = p x := by
        intro x hx
        by_cases hsig : x.signature = n.signature
        · simp [hsig, hpn, (hdrop x (mem_of_mem_latest hx) hsig).1]
        · simp [hsig]
      rw [List.filter_congr hp]
      have hkeep : ((latest ns).filter p).map (fun x => if x.signature = n.signature then n else x) =
          (latest ns).filter p := by
        refine (List.map_congr_left fun x hx => if_neg fun hsig => ?_).trans (List.map_id _)
        rw [List.mem_filter] at hx
        rw [(hdrop x (mem_of_mem_latest hx.1) hsig).1] at hx
        exact absurd hx.2 Bool.false_ne_true
      rw [hkeep]
      simp [hpn]
    · rw [latest_concat_of_not_mem hn, List.filter_append, List.filter_append, ih]

end Latest

namespace ChildMap

variable {m : ChildMap Node} {n : Node} {source target : String}

theorem Indexed.contains_of_nodes {ns : List Node} (h : m.Indexed) (hm : m.nodes = latest ns)
    {sig : String} : m.contains sig ↔ sig ∈ ns.map Node.signature := by
  rw [h.contains_iff, signatures, hm]
  exact mem_signatures_latest

/-- A node that takes over a place is all that changes in the list. -/
theorem Indexed.replace_nodes {i : Nat} (h : m.Indexed) (hi : m.position? n.signature = some i) :
    m.nodes.set i n = n.superseding m.nodes := by
  rw [Node.superseding]
  refine List.ext_getElem? fun j => ?_
  have hj := h n.signature j
  rw [hi, Option.some.injEq] at hj
  by_cases hij : i = j
  · subst hij
    obtain ⟨x, hx, hsig⟩ := Option.map_eq_some_iff.mp (hj.mp rfl)
    rw [List.getElem?_set_self (List.getElem?_eq_some_iff.mp hx).1, List.getElem?_map, hx,
      Option.map_some, if_pos hsig]
  · rw [List.getElem?_set_ne hij, List.getElem?_map]
    cases hx : m.nodes[j]? with
    | none => rfl
    | some x =>
      rw [hx, Option.map_some, Option.some.injEq] at hj
      rw [Option.map_some, if_neg (mt hj.mpr hij)]

/-- Inserting keeps the last node of each signature. -/
theorem Indexed.insert_latest {ns : List Node} (h : m.Indexed) (hm : m.nodes = latest ns) (n : Node) :
    (m.insert n).2.Indexed ∧ (m.insert n).2.nodes = latest (ns ++ [n]) := by
  cases hp : m.position? n.signature with
  | none =>
    have hfree : m.contains n.signature = false := by rw [contains, hp]; rfl
    obtain ⟨hins, hidx⟩ := h.insert hfree
    refine ⟨hidx, ?_⟩
    rw [hins, latest_concat_of_not_mem, hm]
    rw [← h.contains_of_nodes hm, hfree]
    exact Bool.false_ne_true
  | some i =>
    obtain ⟨hins, hidx⟩ := h.replace hp
    refine ⟨hidx, ?_⟩
    have htaken : m.contains n.signature := by rw [contains, hp]; rfl
    rw [hins, latest_concat_of_mem ((h.contains_of_nodes hm).mp htaken), ← hm]
    exact h.replace_nodes hp

/-- A child that moves to a free signature keeps its place. -/
theorem Indexed.rekey_nodes (h : m.Indexed) (hsource : m.contains source)
    (htarget : m.contains target = false) : ∃ m', m.rekey source target = some m' ∧
      m'.nodes = m.nodes.map fun x => if x.signature = source then x.resign target else x := by
  obtain ⟨i, hi⟩ := Option.isSome_iff_exists.mp hsource
  refine ⟨_, by simp only [ChildMap.rekey, htarget, hi]; rfl, List.ext_getElem? fun j => ?_⟩
  have hj := h source j
  rw [hi, Option.some.injEq] at hj
  rw [List.getElem?_modify, List.getElem?_map]
  cases hx : m.nodes[j]? with
  | none => simp
  | some x =>
    rw [hx, Option.map_some, Option.some.injEq] at hj
    by_cases hij : i = j
    · simp [hij, hj.mp hij]
    · simp [hij, mt hj.mpr hij]

end ChildMap

end ModWeave
