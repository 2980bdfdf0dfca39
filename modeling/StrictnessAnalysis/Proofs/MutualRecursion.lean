import StrictnessAnalysis.Proofs.Parts
import StrictnessAnalysis.Proofs.Ring

/-! What is said of mutual recursion. A function mentions another if a call of it stands anywhere in
its body, in whatever mode and however deep; the call graph has these edges. Its components of two
or more functions are the classes of functions that reach each other, so the ring holds the members
of these classes, and a report gets one caution for each class, which lists its members in order. -/

namespace StrictnessAnalysis

namespace Table

/-- A call of the second function stands anywhere in the body of the first; both are defined. -/
def Mentions (t : Table) (name name' : String) : Prop :=
  ∃ f, t.find? name = some f ∧ t.defines name' = true ∧
    ∃ mode args, f.body.Contains (.call mode name' args)

/-- Each function reaches the other by a chain of mentions. -/
def Mutual (t : Table) (name name' : String) : Prop :=
  Relation.ReflTransGen t.Mentions name name' ∧ Relation.ReflTransGen t.Mentions name' name

/-- The classes of two or more functions that reach each other, every class once, each with exactly
its members in the order of their code points. -/
structure Classes (t : Table) (classes : List (List String)) : Prop where
  two_le : ∀ c ∈ classes, 2 ≤ c.length
  ordered : ∀ c ∈ classes, c.Pairwise (· < ·)
  mem_iff : ∀ c ∈ classes, ∀ x ∈ c, ∀ y, y ∈ c ↔ t.Mutual x y
  complete : ∀ x y, x ≠ y → t.Mutual x y → ∃ c ∈ classes, x ∈ c
  disjoint : classes.Pairwise List.Disjoint

end Table

namespace CallGraph

theorem calls_iff_mentions {t : Table} {name name' : String} :
    (ofTable t).Calls name name' ↔ t.Mentions name name' := by
  rw [calls_ofTable]
  simp only [Table.Mentions, Expr.mem_callees_iff]
  exact exists_congr fun f => and_congr_right fun _ => and_comm

/-- A graph with the edges of a table has its chains. -/
theorem mutual_iff {t : Table} {g : CallGraph} (h : ∀ x y, g.Calls x y ↔ t.Mentions x y)
    {x y : String} : g.Mutual x y ↔ t.Mutual x y := by
  have hcalls : g.Calls = t.Mentions := by
    funext x y
    exact propext (h x y)
  rw [Mutual, Reaches, hcalls]
  rfl

end CallGraph

namespace Notice

/-- Names that differ are listed in strictly ascending order. -/
theorem pairwise_lt_mergeSort {names : List String} (h : names.Nodup) :
    (names.mergeSort (· ≤ ·)).Pairwise (· < ·) := by
  have hle : (names.mergeSort (· ≤ ·)).Pairwise (· ≤ ·) := by
    have hsorted := @List.pairwise_mergeSort String (fun x y => decide (x ≤ y))
      (fun a b c => by simpa using String.le_trans) (fun a b => by simpa using String.le_total a b)
      names
    simpa using hsorted
  have hnodup : (names.mergeSort (· ≤ ·)).Nodup := (List.mergeSort_perm names _).nodup_iff.2 h
  refine (hle.and hnodup).imp fun ⟨hxy, hne⟩ => String.not_le.1 fun hyx => ?_
  exact hne (String.le_antisymm hxy hyx)

theorem mergeSort_of_ordered {names : List String} (h : names.Pairwise (· < ·)) :
    names.mergeSort (· ≤ ·) = names := by
  refine List.mergeSort_of_pairwise (h.imp fun hlt => decide_eq_true ?_)
  exact String.not_lt.1 (String.lt_asymm hlt)

/-- The caution about a class does not depend on the order in which its members were found. -/
theorem mutualRecursion_mergeSort {names : List String} (h : names.Nodup) :
    mutualRecursion (names.mergeSort (· ≤ ·)) = mutualRecursion names := by
  unfold mutualRecursion
  rw [mergeSort_of_ordered (pairwise_lt_mergeSort h)]

theorem remarks_mutualRecursion {names : List String} (h : names.Pairwise (· < ·)) :
    (mutualRecursion names).remarks = [" - The cycle is: " ++ String.intercalate ", " names,
      " - Treating them as strict in nothing."] := by
  unfold mutualRecursion
  rw [mergeSort_of_ordered h]

end Notice

theorem Report.foldl_caution (r : Report) (notices : List Notice) :
    notices.foldl Report.caution r = { r with cautions := r.cautions ++ notices } := by
  induction notices generalizing r with
  | nil => simp
  | cons n notices ih => rw [List.foldl_cons, ih, Report.caution, List.append_assoc]; rfl

namespace Analysis

open CallGraph

variable {t : Table} {g : CallGraph}

theorem mem_cycles {c : List String} :
    c ∈ (ofGraph t g).cycles ↔ c ∈ g.components ∧ 1 < c.length := by
  simp [ofGraph]

theorem cycle_nodup (hg : g.Closed) {c : List String} (hc : c ∈ (ofGraph t g).cycles) : c.Nodup :=
  (List.nodup_flatten.1 (components_nodup hg)).1 c (mem_cycles.1 hc).1

/-- Sorted one by one, the cycles are the classes of mutual recursion, in whatever order the graph
lists its callees. -/
theorem classes_cycles (hg : g.Closed) (hcalls : ∀ x y, g.Calls x y ↔ t.Mentions x y) :
    t.Classes ((ofGraph t g).cycles.map fun c => c.mergeSort (· ≤ ·)) where
  two_le := by
    refine List.forall_mem_map.2 fun c hc => ?_
    rw [List.length_mergeSort]
    exact (mem_cycles.1 hc).2
  ordered := List.forall_mem_map.2 fun c hc => Notice.pairwise_lt_mergeSort (cycle_nodup hg hc)
  mem_iff := by
    refine List.forall_mem_map.2 fun c hc x hx y => ?_
    rw [List.mem_mergeSort] at hx ⊢
    rw [← mutual_iff hcalls]
    exact (isComponent_of_mem hg (mem_cycles.1 hc).1).2 x hx y
  complete := by
    intro x y hne hmutual
    have hring : x ∈ (ofGraph t g).ring :=
      (mem_ring_ofGraph hg).2 ⟨y, hne.symm, (mutual_iff hcalls).2 hmutual⟩
    obtain ⟨c, hc, hx⟩ := List.mem_flatten.1 hring
    exact ⟨_, List.mem_map_of_mem hc, List.mem_mergeSort.2 hx⟩
  disjoint := by
    have hdisjoint : (ofGraph t g).cycles.Pairwise List.Disjoint :=
      (List.nodup_flatten.1 (components_nodup hg)).2.filter _
    rw [List.pairwise_map]
    refine hdisjoint.imp fun h x hx hx' => ?_
    exact h (List.mem_mergeSort.1 hx) (List.mem_mergeSort.1 hx')

/-- The ring is exactly the mutual recursion of a program: a function is in it if and only if it and
another function reach each other. The cautions that the analysis adds to a report are one for each
class of two or more such functions, listing the members of the class in order; nothing else in the
report changes. -/
theorem ring_and_cautions (defs : List Definition) (report : Report) :
    (∀ name, name ∈ (ofTable (Table.ofList defs)).ring ↔
      ∃ other, (Table.ofList defs).defines other = true ∧ other ≠ name ∧
        (Table.ofList defs).Mutual name other) ∧
    ∃ classes, (Table.ofList defs).Classes classes ∧
      (∀ c ∈ classes,
        " - The cycle is: " ++ String.intercalate ", " c ∈ (Notice.mutualRecursion c).remarks) ∧
      (ofTable (Table.ofList defs)).warn report =
        { report with cautions := report.cautions ++ classes.map Notice.mutualRecursion } := by
  have hg := closed_ofTable (Table.ofList defs)
  have hcalls : ∀ x y, (CallGraph.ofTable (Table.ofList defs)).Calls x y ↔
      (Table.ofList defs).Mentions x y := fun _ _ => calls_iff_mentions
  have hclasses := classes_cycles hg hcalls
  refine ⟨fun name => ?_, _, hclasses, fun c hc => ?_, ?_⟩
  · rw [mem_ring_iff]
    refine exists_congr fun other => ?_
    rw [mutual_iff hcalls]
    refine ⟨fun ⟨hne, hmutual⟩ => ⟨?_, hne, hmutual⟩, fun h => h.2⟩
    exact mem_nodes_ofTable.1 (((mutual_iff hcalls).2 hmutual).1.mem_nodes hg hne.symm)
  · rw [Notice.remarks_mutualRecursion (hclasses.ordered c hc)]
    exact List.mem_cons_self
  · rw [warn, Report.foldl_caution, cautions, List.map_map]
    have hnotices : (ofTable (Table.ofList defs)).cycles.map Notice.mutualRecursion =
        (ofTable (Table.ofList defs)).cycles.map
          (Notice.mutualRecursion ∘ fun c => c.mergeSort (· ≤ ·)) :=
      List.map_congr_left fun c hc =>
        (Notice.mutualRecursion_mergeSort (cycle_nodup hg hc)).symm
    rw [hnotices]
    rfl

end Analysis

end StrictnessAnalysis
