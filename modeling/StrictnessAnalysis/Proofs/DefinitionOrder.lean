import StrictnessAnalysis.Proofs.Lookup
import StrictnessAnalysis.Proofs.MutualRecursion
import StrictnessAnalysis.Proofs.Termination

/-! The order of definitions does not matter, nor does the order in which the search for cycles
comes upon the callees of a function. The search finds other stacks and lists components in another
order, but the components are classes of functions that reach each other, and there is only one way
to divide the functions of a program into those. So the analysis depends on the last definition of
every name alone. -/

namespace StrictnessAnalysis

open Abstract

/-! ### Classes of mutual recursion -/

/-- Names in strictly ascending order are known by which they are. -/
theorem eq_of_ordered {names names' : List String} (h : names.Pairwise (· < ·))
    (h' : names'.Pairwise (· < ·)) (hmem : ∀ x, x ∈ names ↔ x ∈ names') : names = names' := by
  have hnodup : ∀ {names : List String}, names.Pairwise (· < ·) → names.Nodup := by
    intro names h
    refine h.imp fun {x y} hlt heq => ?_
    exact String.lt_irrefl y (heq ▸ hlt)
  have hperm : names.Perm names' := (List.perm_ext_iff_of_nodup (hnodup h) (hnodup h')).2 hmem
  exact hperm.eq_of_pairwise (fun _ _ _ _ hlt hgt => absurd hgt (String.lt_asymm hlt)) h h'

namespace Table

variable {t t' : Table} {classes classes' : List (List String)}

theorem mentions_congr (h : ∀ name, t.find? name = t'.find? name) : t.Mentions = t'.Mentions := by
  funext name name'
  simp only [Mentions, h, defines_congr h]

theorem mutual_congr (h : ∀ name, t.find? name = t'.find? name) : t.Mutual = t'.Mutual := by
  funext name name'
  simp only [Mutual, mentions_congr h]

/-- The classes of a program are those of every program with the same last definitions. -/
theorem Classes.congr (h : ∀ name, t.find? name = t'.find? name) (hclasses : t.Classes classes) :
    t'.Classes classes where
  two_le := hclasses.two_le
  ordered := hclasses.ordered
  mem_iff := mutual_congr h ▸ hclasses.mem_iff
  complete := mutual_congr h ▸ hclasses.complete
  disjoint := hclasses.disjoint

theorem Classes.nodup (h : t.Classes classes) : classes.Nodup := by
  refine h.disjoint.imp_of_mem fun hc _ hdisjoint heq => ?_
  obtain ⟨x, hx⟩ := List.exists_mem_of_length_pos (Nat.zero_lt_two.trans_le (h.two_le _ hc))
  exact hdisjoint hx (heq ▸ hx)

/-- A member of a class reaches, and is reached from, another function. -/
theorem Classes.exists_mutual (h : t.Classes classes) {c : List String} (hc : c ∈ classes) :
    ∃ x ∈ c, ∃ y, x ≠ y ∧ t.Mutual x y := by
  have hlen := h.two_le c hc
  have hordered := h.ordered c hc
  match c, hlen, hordered with
  | x :: y :: rest, _, hordered =>
    have hlt : x < y := (List.pairwise_cons.1 hordered).1 y List.mem_cons_self
    refine ⟨x, List.mem_cons_self, y, fun e => String.lt_irrefl y (e ▸ hlt), ?_⟩
    exact (h.mem_iff _ hc x List.mem_cons_self y).1 (by simp)

/-- Two classes with a common member are the same list. -/
theorem Classes.eq_of_mem (h : t.Classes classes) (h' : t.Classes classes') {c c' : List String}
    (hc : c ∈ classes) (hc' : c' ∈ classes') {x : String} (hx : x ∈ c) (hx' : x ∈ c') : c = c' := by
  refine eq_of_ordered (h.ordered c hc) (h'.ordered c' hc') fun y => ?_
  exact (h.mem_iff c hc x hx y).trans (h'.mem_iff c' hc' x hx' y).symm

theorem Classes.subset (h : t.Classes classes) (h' : t.Classes classes') : classes ⊆ classes' := by
  intro c hc
  obtain ⟨x, hx, y, hne, hmutual⟩ := h.exists_mutual hc
  obtain ⟨c', hc', hx'⟩ := h'.complete x y hne hmutual
  exact h.eq_of_mem h' hc hc' hx hx' ▸ hc'

/-- There is one division into classes, up to the order in which they are listed. -/
theorem Classes.perm (h : t.Classes classes) (h' : t.Classes classes') : classes.Perm classes' :=
  (List.perm_ext_iff_of_nodup h.nodup h'.nodup).2 fun _ =>
    ⟨fun hc => h.subset h' hc, fun hc => h'.subset h hc⟩

end Table

/-! ### Orders of callees -/

namespace CallGraph

/-- The graph lists the functions of the table in its order, each with its callees in any order. -/
def Lists (g : CallGraph) (t : Table) : Prop :=
  List.Forall₂ (fun row row' => row.1 = row'.1 ∧ row.2.Perm row'.2) g (ofTable t)

instance (g : CallGraph) (t : Table) : Decidable (g.Lists t) :=
  inferInstanceAs (Decidable (List.Forall₂ _ g (ofTable t)))

variable {g g' : CallGraph} {t : Table}

theorem lists_ofTable (t : Table) : (ofTable t).Lists t :=
  List.forall₂_same.2 fun _ _ => ⟨rfl, .rfl⟩

theorem callees_perm (h : List.Forall₂ (fun row row' => row.1 = row'.1 ∧ row.2.Perm row'.2) g g')
    (name : String) : (g.callees name).Perm (g'.callees name) := by
  induction h with
  | nil => exact .rfl
  | @cons row row' rows rows' hrow _ ih =>
    obtain ⟨key, cs⟩ := row
    obtain ⟨key', cs'⟩ := row'
    obtain ⟨rfl, hperm⟩ := hrow
    simp only [callees, List.lookup_cons] at ih ⊢
    by_cases hname : name = key
    · simpa [hname] using hperm
    · simpa only [beq_eq_false_iff_ne.2 hname] using ih

theorem Lists.calls_iff (h : g.Lists t) {name name' : String} :
    g.Calls name name' ↔ t.Mentions name name' := by
  rw [← calls_iff_mentions]
  exact (callees_perm h name).mem_iff

theorem Lists.closed (h : g.Lists t) : g.Closed := by
  have hnodes : g.nodes = (ofTable t).nodes := by
    rw [nodes, nodes, ← List.forall₂_eq_eq_eq, List.forall₂_map_left_iff,
      List.forall₂_map_right_iff]
    exact h.imp fun _ _ hrow => hrow.1
  intro name name' hcall
  rw [hnodes, mem_nodes_ofTable]
  obtain ⟨-, -, hdef, -⟩ := h.calls_iff.1 hcall
  exact hdef

end CallGraph

/-! ### The analysis -/

namespace Analysis

/-- The same definition for every name, and the same functions in the ring. -/
structure Alike (a a' : Analysis) : Prop where
  find? : ∀ name, a.table.find? name = a'.table.find? name
  ring : ∀ name, name ∈ a.ring ↔ name ∈ a'.ring

variable {a a' : Analysis}

theorem Alike.prepare_eq (h : a.Alike a') : a.prepare = a'.prepare := by
  funext inside e
  simp only [prepare, prepareCall, h.ring, Table.defines_congr h.find?]

theorem Alike.find?_prepared (h : a.Alike a') (name : String) :
    a.prepared.find? name = a'.prepared.find? name := by
  have hready : a.ready = a'.ready := by
    funext f
    rw [ready, h.prepare_eq]
  rw [Analysis.find?_prepared, Analysis.find?_prepared, h.find?, hready]

theorem Alike.strictness_eq (h : a.Alike a') (depth : Nat) :
    a.strictness depth = a'.strictness depth := by
  funext f
  simp only [strictness, h.ring, h.prepare_eq, solve_congr h.find?_prepared]

theorem Alike.query_eq (h : a.Alike a') (depth : Nat) : a.query depth = a'.query depth := by
  funext env e
  rw [query, query, h.prepare_eq, eval_congr h.find?_prepared]

section Graphs

variable {t t' : Table} {g g' : CallGraph}

theorem alike_ofGraph (h : ∀ name, t.find? name = t'.find? name) (hg : g.Lists t)
    (hg' : g'.Lists t') : (ofGraph t g).Alike (ofGraph t' g') where
  find? := h
  ring name := by
    rw [mem_ring_ofGraph hg.closed, mem_ring_ofGraph hg'.closed]
    refine exists_congr fun other => and_congr_right fun _ => ?_
    rw [CallGraph.mutual_iff fun _ _ => hg.calls_iff, CallGraph.mutual_iff fun _ _ => hg'.calls_iff,
      Table.mutual_congr h]

/-- The cautions are about the cycles with their members in order. -/
theorem cautions_eq (hg : g.Closed) : (ofGraph t g).cautions =
    ((ofGraph t g).cycles.map fun c => c.mergeSort (· ≤ ·)).map Notice.mutualRecursion := by
  rw [cautions, List.map_map]
  exact List.map_congr_left fun c hc =>
    (Notice.mutualRecursion_mergeSort (cycle_nodup hg hc)).symm

theorem cautions_perm (h : ∀ name, t.find? name = t'.find? name) (hg : g.Lists t)
    (hg' : g'.Lists t') : (ofGraph t g).cautions.Perm (ofGraph t' g').cautions := by
  have hclasses := classes_cycles hg.closed fun _ _ => hg.calls_iff
  have hclasses' := classes_cycles hg'.closed fun _ _ => hg'.calls_iff
  rw [cautions_eq hg.closed, cautions_eq hg'.closed]
  exact ((hclasses.congr h).perm hclasses').map Notice.mutualRecursion

end Graphs

/-- The order of definitions does not matter, nor do definitions that are overwritten later, nor the
order in which the search for cycles takes the callees of a function. Lists with the same last
definition of every name have the same ring, the same cautions up to their order, the same
strictness of every function, the same outcome of every query, and the same outcome of every
evaluation in either semantics. -/
theorem analysis_of_last_definitions {defs defs' : List Definition}
    (h : ∀ name, Definition.last? defs name = Definition.last? defs' name) {g g' : CallGraph}
    (hg : g.Lists (Table.ofList defs)) (hg' : g'.Lists (Table.ofList defs')) :
    (∀ name, name ∈ (ofGraph (Table.ofList defs) g).ring ↔
      name ∈ (ofGraph (Table.ofList defs') g').ring) ∧
    (ofGraph (Table.ofList defs) g).cautions.Perm (ofGraph (Table.ofList defs') g').cautions ∧
    (∀ depth name,
      ((Table.ofList defs).find? name).map ((ofGraph (Table.ofList defs) g).strictness depth) =
        ((Table.ofList defs').find? name).map
          ((ofGraph (Table.ofList defs') g').strictness depth)) ∧
    (∀ depth env e, (ofGraph (Table.ofList defs) g).query depth env e =
      (ofGraph (Table.ofList defs') g').query depth env e) ∧
    (∀ depth env e, Standard.eval (Table.ofList defs) depth env e =
      Standard.eval (Table.ofList defs') depth env e) ∧
    ∀ depth memo env e, eval (Table.ofList defs) depth memo env e =
      eval (Table.ofList defs') depth memo env e := by
  have hfind : ∀ name, (Table.ofList defs).find? name = (Table.ofList defs').find? name := by
    intro name
    rw [Table.find?_ofList, Table.find?_ofList, h]
  have halike := alike_ofGraph hfind hg hg'
  refine ⟨halike.ring, cautions_perm hfind hg hg', fun depth name => ?_, fun depth env e => ?_,
    fun depth env e => ?_, fun depth memo env e => ?_⟩
  · rw [hfind, halike.strictness_eq]
  · rw [halike.query_eq]
  · rw [Standard.eval_congr hfind]
  · rw [eval_congr hfind]

/-- Two functions that call each other, and a third that calls both, the identity, and itself. -/
def tangled : List Definition :=
  [⟨"even", ["n"], .cond (.var "n") (.call .plain "odd" [.var "n"]) (.const 1)⟩,
    ⟨"odd", ["n"], .cond (.var "n") (.call .plain "even" [.var "n"]) (.const 0)⟩,
    ⟨"id", ["x"], .var "x"⟩,
    ⟨"all", ["x", "y"], .cond (.call .plain "id" [.var "x"])
      (.call .plain "all" [.call .plain "even" [.var "y"], .var "y"]) (.call .plain "odd" [])⟩]

/-- The same functions the other way round, one of them first defined as something else. -/
def retangled : List Definition := ⟨"id", [], .call .plain "all" []⟩ :: tangled.reverse

/-- The calls of these functions, with the callees of the first one backwards. -/
def retangledCalls : CallGraph :=
  [("id", []), ("all", ["odd", "even", "all", "id"]), ("odd", ["even"]), ("even", ["odd"])]

theorem tangled_alike :
    (ofTable (Table.ofList tangled)).cycles ≠
      (ofGraph (Table.ofList retangled) retangledCalls).cycles ∧
    (ofTable (Table.ofList tangled)).cautions.Perm
      (ofGraph (Table.ofList retangled) retangledCalls).cautions ∧
    ∀ depth env e, (ofTable (Table.ofList tangled)).query depth env e =
      (ofGraph (Table.ofList retangled) retangledCalls).query depth env e := by
  have hlast : ∀ name, Definition.last? tangled name = Definition.last? retangled name := by
    intro name
    by_cases heven : "even" = name
    · subst heven; rfl
    by_cases hodd : "odd" = name
    · subst hodd; rfl
    by_cases hid : "id" = name
    · subst hid; rfl
    by_cases hall : "all" = name
    · subst hall; rfl
    simp [Definition.last?, tangled, retangled, heven, hodd, hid, hall]
  have hlists : retangledCalls.Lists (Table.ofList retangled) := by decide
  have h := analysis_of_last_definitions hlast (CallGraph.lists_ofTable _) hlists
  exact ⟨by decide, h.2.1, h.2.2.2.1⟩

end Analysis

end StrictnessAnalysis
