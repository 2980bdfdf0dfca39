import StrictnessAnalysis.Analysis
import StrictnessAnalysis.Proofs.CallSites
import StrictnessAnalysis.Proofs.Components

/-! The ring of a program is its mutual recursion: a function is in it if and only if it and some
other function reach each other in the call graph. Outside the ring, calls of other functions only
go down, so facts about these functions can be proved by induction along their calls. -/

namespace StrictnessAnalysis

namespace CallGraph

theorem lookup_map_entries (entries : List Definition) (callees : Definition → List String)
    (name : String) : (entries.map fun f => (f.name, callees f)).lookup name =
      (entries.find? fun f => f.name == name).map callees := by
  induction entries with
  | nil => rfl
  | cons f entries ih =>
    rw [List.map_cons, List.lookup_cons, List.find?_cons]
    by_cases h : f.name = name
    · simp [h]
    · have hleft : (name == f.name) = false := beq_eq_false_iff_ne.2 fun e => h e.symm
      have hright : (f.name == name) = false := beq_eq_false_iff_ne.2 h
      simpa only [hleft, hright] using ih

/-- The edges of the graph of a table. -/
theorem calls_ofTable {t : Table} {name callee : String} :
    (ofTable t).Calls name callee ↔
      ∃ f, t.find? name = some f ∧ callee ∈ f.body.callees ∧ t.defines callee = true := by
  rw [Calls, callees, ofTable, lookup_map_entries]
  change callee ∈ (Option.map _ (t.find? name)).getD [] ↔ _
  cases t.find? name with
  | none => simp
  | some f => simp [List.mem_eraseDups]

theorem calls_of_callSite {t : Table} {name : String} {f : Definition} {c : CallSite}
    (hf : t.find? name = some f) (hc : c ∈ f.body.callSites) (hdef : t.defines c.callee = true) :
    (ofTable t).Calls name c.callee := by
  refine calls_ofTable.2 ⟨f, hf, ?_, hdef⟩
  rw [Expr.callees_eq_map_callSites]
  exact List.mem_map_of_mem hc

theorem nodes_ofTable (t : Table) : (ofTable t).nodes = t.names := by
  simp [nodes, ofTable, Table.names]

theorem mem_nodes_ofTable {t : Table} {name : String} :
    name ∈ (ofTable t).nodes ↔ t.defines name = true := by
  rw [nodes_ofTable, Table.defines, List.contains_iff_mem]

theorem closed_ofTable (t : Table) : (ofTable t).Closed := by
  intro f h hcall
  obtain ⟨-, -, -, hdef⟩ := calls_ofTable.1 hcall
  exact mem_nodes_ofTable.2 hdef

/-- A function that is reached from another one is called by some function. -/
theorem Reaches.mem_nodes {g : CallGraph} (hg : g.Closed) {f h : String} (hr : g.Reaches f h)
    (hne : f ≠ h) : h ∈ g.nodes := by
  rcases Relation.ReflTransGen.cases_tail hr with heq | ⟨k, -, hcall⟩
  · exact absurd heq.symm hne
  · exact hg k h hcall

open scoped Classical in
/-- How many functions a function reaches. -/
noncomputable def reachCount (g : CallGraph) (name : String) : Nat :=
  (g.nodes.toFinset.filter (g.Reaches name)).card

theorem reachCount_lt {g : CallGraph} {f h : String} (hf : f ∈ g.nodes) (hr : g.Reaches f h)
    (hback : ¬ g.Reaches h f) : g.reachCount h < g.reachCount f := by
  classical
  apply Finset.card_lt_card
  rw [Finset.ssubset_iff_of_subset]
  · have hself : g.Reaches f f := Relation.ReflTransGen.refl
    exact ⟨f, by simp [hf, hself], by simp [hback]⟩
  · intro x hx
    rw [Finset.mem_filter] at hx ⊢
    exact ⟨hx.1, hr.trans hx.2⟩

end CallGraph

namespace Analysis

open CallGraph

theorem mem_ring_ofGraph {t : Table} {g : CallGraph} (hg : g.Closed) {name : String} :
    name ∈ (ofGraph t g).ring ↔ ∃ h, h ≠ name ∧ g.Mutual name h := by
  simp only [ring, ofGraph, List.mem_flatten, List.mem_filter, decide_eq_true_eq]
  constructor
  · rintro ⟨c, ⟨hc, hlen⟩, hname⟩
    have hnodup : c.Nodup := (List.nodup_flatten.1 (components_nodup hg)).1 c hc
    rw [← List.toFinset_card_of_nodup hnodup] at hlen
    obtain ⟨h, hh, hne⟩ := Finset.exists_mem_ne hlen name
    exact ⟨h, hne, ((isComponent_of_mem hg hc).2 name hname h).1 (List.mem_toFinset.1 hh)⟩
  · rintro ⟨h, hne, hmutual⟩
    obtain ⟨c, hc, hname⟩ := exists_component hg (hmutual.2.mem_nodes hg hne)
    have hh : h ∈ c := ((isComponent_of_mem hg hc).2 name hname h).2 hmutual
    have htwo : 1 < c.toFinset.card :=
      Finset.one_lt_card.2 ⟨h, by simpa using hh, name, by simpa using hname, hne⟩
    exact ⟨c, ⟨hc, htwo.trans_le (List.toFinset_card_le c)⟩, hname⟩

/-- The ring is the mutual recursion of the program. -/
theorem mem_ring_iff {t : Table} {name : String} :
    name ∈ (ofTable t).ring ↔ ∃ h, h ≠ name ∧ (CallGraph.ofTable t).Mutual name h :=
  mem_ring_ofGraph (closed_ofTable t)

theorem defines_of_mem_ring {t : Table} {name : String} (h : name ∈ (ofTable t).ring) :
    t.defines name = true := by
  obtain ⟨k, hne, hmutual⟩ := mem_ring_iff.1 h
  exact mem_nodes_ofTable.1 (hmutual.2.mem_nodes (closed_ofTable t) hne)

/-- Induction along the calls of functions outside the ring. Calls of the function itself and calls
into the ring are left out; all others lead to functions that reach less. -/
theorem induction_calls {t : Table} {P : String → Prop}
    (step : ∀ name f, t.find? name = some f → name ∉ (ofTable t).ring →
      (∀ h, (CallGraph.ofTable t).Calls name h → h ≠ name → h ∉ (ofTable t).ring → P h) → P name)
    (name : String) (hdef : t.defines name = true) (hring : name ∉ (ofTable t).ring) : P name := by
  obtain ⟨f, hf⟩ := Table.defines_iff.1 hdef
  refine step name f hf hring fun h hcall hne hh => ?_
  have hback : ¬ (CallGraph.ofTable t).Reaches h name := fun hr =>
    hring (mem_ring_iff.2 ⟨h, hne, .of_calls hcall, hr⟩)
  have hlt : (CallGraph.ofTable t).reachCount h < (CallGraph.ofTable t).reachCount name :=
    reachCount_lt (mem_nodes_ofTable.2 hdef) (.of_calls hcall) hback
  exact induction_calls step h (mem_nodes_ofTable.1 (closed_ofTable t name h hcall)) hh
termination_by (CallGraph.ofTable t).reachCount name

end Analysis

end StrictnessAnalysis
