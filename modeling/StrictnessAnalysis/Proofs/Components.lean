import Mathlib.Data.Finset.Card
import Mathlib.Data.List.Nodup
import Mathlib.Logic.Relation
import StrictnessAnalysis.CallGraph

/-! The components of a call graph are the classes of functions that reach each other. The search is
followed through what a visit leaves behind: some functions on the stack above those that stood
there before, and some completed components. What it left on the stack is reachable from the visited
function, has all its calls looked at, and reaches further down the stack; so if nothing below was
seen, it is one class. -/

namespace StrictnessAnalysis.CallGraph

/-- The function `f` calls the function `h` somewhere in its body. -/
def Calls (g : CallGraph) (f h : String) : Prop := h ∈ g.callees f

/-- There is a chain of calls, possibly empty, from one function to another. -/
def Reaches (g : CallGraph) : String → String → Prop := Relation.ReflTransGen g.Calls

/-- Two functions that reach each other. -/
def Mutual (g : CallGraph) (f h : String) : Prop := g.Reaches f h ∧ g.Reaches h f

def nodes (g : CallGraph) : List String := g.map Prod.fst

/-- Only functions of the graph are called. -/
def Closed (g : CallGraph) : Prop := ∀ f h, g.Calls f h → h ∈ g.nodes

/-- The functions that reach, and are reached from, any one of them, all listed. -/
def IsComponent (g : CallGraph) (c : List String) : Prop :=
  c ≠ [] ∧ ∀ x ∈ c, ∀ y, y ∈ c ↔ g.Mutual x y

theorem Reaches.of_calls {g : CallGraph} {f h : String} (hc : g.Calls f h) : g.Reaches f h :=
  Relation.ReflTransGen.single hc

theorem Reaches.trans {g : CallGraph} {f h k : String} (hf : g.Reaches f h) (hh : g.Reaches h k) :
    g.Reaches f k :=
  Relation.ReflTransGen.trans hf hh

/-- What is closed under calls is closed under chains of calls. -/
theorem Reaches.mem {g : CallGraph} {S : List String}
    (hS : ∀ x ∈ S, ∀ y, g.Calls x y → y ∈ S) {f h : String} (hf : f ∈ S) (hr : g.Reaches f h) :
    h ∈ S := by
  induction hr with
  | refl => exact hf
  | tail _ hcall ih => exact hS _ ih _ hcall

/-! ### The functions entered so far -/

namespace Search

/-- The functions of the completed components. -/
def done (s : Search) : List String := s.components.flatten

theorem entered_iff {s : Search} {x : String} : s.entered x = true ↔ x ∈ s.stack ∨ x ∈ s.done := by
  simp [entered, done]

theorem not_entered_iff {s : Search} {x : String} :
    s.entered x = false ↔ x ∉ s.stack ∧ x ∉ s.done := by
  rw [← Bool.not_eq_true, entered_iff, not_or]

theorem getElem?_of_height? {s : Search} {x : String} {i : Nat} (h : s.height? x = some i) :
    s.stack.reverse[i]? = some x := by
  obtain ⟨hi, hx, -⟩ := List.findIdx?_eq_some_iff_getElem.1 h
  rw [List.getElem?_eq_getElem hi, Option.some.injEq]
  simpa using hx

theorem not_mem_of_height? {s : Search} {x : String} (h : s.height? x = none) : x ∉ s.stack := by
  simpa [height?] using h

theorem entered_push {s : Search} {x name : String} :
    (s.push name).entered x = true ↔ x = name ∨ s.entered x = true := by
  simp [entered_iff, push, done, or_assoc]

theorem entered_complete {s : Search} {x : String} {height : Nat} (h : s.entered x = true) :
    (s.complete height).entered x = true := by
  rw [entered_iff] at h ⊢
  simp only [complete, done, List.flatten_append, List.mem_append] at h ⊢
  rcases h with h | h
  · rw [← List.take_append_drop (s.stack.length - height) s.stack, List.mem_append] at h
    rcases h with h | h
    · exact .inr (.inr (by simpa using h))
    · exact .inl h
  · exact .inr (.inl h)

/-- How many functions of the graph were not entered yet. -/
def pending (g : CallGraph) (s : Search) : Nat :=
  (g.nodes.toFinset.filter fun x => s.entered x = false).card

theorem pending_le {g : CallGraph} (s : Search) : s.pending g ≤ g.length := by
  calc s.pending g ≤ g.nodes.toFinset.card := Finset.card_filter_le _ _
    _ ≤ g.nodes.length := List.toFinset_card_le _
    _ = g.length := List.length_map _

theorem pending_mono {g : CallGraph} {s s' : Search}
    (h : ∀ x, s.entered x = true → s'.entered x = true) : s'.pending g ≤ s.pending g := by
  apply Finset.card_le_card
  intro x hx
  rw [Finset.mem_filter] at hx ⊢
  refine ⟨hx.1, ?_⟩
  rw [← Bool.not_eq_true]
  intro hs
  rw [h x hs] at hx
  exact absurd hx.2 (by decide)

theorem pending_push {g : CallGraph} {s : Search} {name : String} (hn : name ∈ g.nodes)
    (h : s.entered name = false) : (s.push name).pending g < s.pending g := by
  apply Finset.card_lt_card
  rw [Finset.ssubset_iff_of_subset]
  · exact ⟨name, by simp [hn, h], by simp [entered_push]⟩
  · intro x hx
    rw [Finset.mem_filter] at hx ⊢
    refine ⟨hx.1, ?_⟩
    rw [← Bool.not_eq_true]
    intro hs
    rw [entered_push.2 (.inr hs)] at hx
    exact absurd hx.2 (by decide)

end Search

section Entered

variable {g : CallGraph}

theorem entered_look {visit : String → Search → Nat × Search}
    (hv : ∀ name s x, s.entered x = true → (visit name s).2.entered x = true)
    (seen : Nat × Search) (callee : String) {x : String} (hx : seen.2.entered x = true) :
    (look visit seen callee).2.entered x = true := by
  unfold look
  split_ifs
  · split <;> exact hx
  · exact hv callee seen.2 x hx

theorem entered_foldl_look {visit : String → Search → Nat × Search}
    (hv : ∀ name s x, s.entered x = true → (visit name s).2.entered x = true)
    (cs : List String) (seen : Nat × Search) {x : String} (hx : seen.2.entered x = true) :
    (cs.foldl (look visit) seen).2.entered x = true := by
  induction cs generalizing seen with
  | nil => exact hx
  | cons c cs ih => exact ih _ (entered_look hv seen c hx)

/-- What was entered stays entered. -/
theorem entered_visit (fuel : Nat) (name : String) (s : Search) (x : String)
    (hx : s.entered x = true) : (visit g fuel name s).2.entered x = true := by
  induction fuel generalizing name s x with
  | zero => exact hx
  | succ fuel ih =>
    have hscan := entered_foldl_look ih (g.callees name) (s.stack.length, s.push name)
      (Search.entered_push.2 (.inr hx))
    simp only [visit]
    split_ifs
    · exact hscan
    · exact Search.entered_complete hscan

/-- Fuel for all functions that were not entered is enough: more makes no difference. -/
theorem visit_fuel (hg : g.Closed) (fuel : Nat) (name : String) (s : Search)
    (hn : name ∈ g.nodes) (hs : s.entered name = false) (hfuel : s.pending g ≤ fuel) :
    visit g (fuel + 1) name s = visit g fuel name s := by
  induction fuel generalizing name s with
  | zero =>
    have := Search.pending_push hn hs
    omega
  | succ fuel ih =>
    have hscan : ∀ (cs : List String) (seen : Nat × Search), (∀ c ∈ cs, c ∈ g.nodes) →
        seen.2.pending g ≤ fuel →
        cs.foldl (look (visit g (fuel + 1))) seen = cs.foldl (look (visit g fuel)) seen := by
      intro cs
      induction cs with
      | nil => exact fun _ _ _ => rfl
      | cons c cs ihcs =>
        intro seen hcs hseen
        rw [List.forall_mem_cons] at hcs
        have hlook : look (visit g (fuel + 1)) seen c = look (visit g fuel) seen c := by
          unfold look
          split_ifs with hc
          · rfl
          · rw [ih c seen.2 hcs.1 (by simpa using hc) hseen]
        rw [List.foldl_cons, List.foldl_cons, hlook]
        refine ihcs _ hcs.2 (le_trans (Search.pending_mono fun x hx => ?_) hseen)
        exact entered_look (entered_visit fuel) seen c hx
    have hpush := Search.pending_push hn hs
    rw [visit, visit, hscan _ _ (fun c hc => hg name c hc) (by simp only; omega)]

end Entered

/-! ### What a search leaves behind -/

/-- Every function of the list, the last entered first, reaches one that stands below it. -/
def Sinks (g : CallGraph) : (new base : List String) → Prop
  | [], _ => True
  | x :: rest, base => (∃ z ∈ rest ++ base, g.Reaches x z) ∧ Sinks g rest base

theorem sinks_append {g : CallGraph} {xs ys base : List String} :
    Sinks g (xs ++ ys) base ↔ Sinks g xs (ys ++ base) ∧ Sinks g ys base := by
  induction xs with
  | nil => simp [Sinks]
  | cons x xs ih => simp only [List.cons_append, Sinks, ih, List.append_assoc, and_assoc]

/-- If nothing in the base is reached, all functions above it reach the bottom one of them. -/
theorem Sinks.reaches {g : CallGraph} {new base : List String} {name : String}
    (h : Sinks g new (name :: base)) (hbase : ∀ x ∈ new, ∀ z ∈ base, ¬ g.Reaches x z) :
    ∀ x ∈ new, g.Reaches x name := by
  induction new with
  | nil => simp
  | cons y new ih =>
    rw [List.forall_mem_cons] at hbase
    have hrest := ih h.2 hbase.2
    refine List.forall_mem_cons.2 ⟨?_, hrest⟩
    obtain ⟨z, hz, hr⟩ := h.1
    rw [List.mem_append, List.mem_cons] at hz
    rcases hz with hz | rfl | hz
    · exact hr.trans (hrest z hz)
    · exact hr
    · exact absurd hr (hbase.1 z hz)

/-- What holds of the search at any time: no function stands in two places, the completed functions
call completed ones only, and the completed components are components of the graph. -/
structure Sound (g : CallGraph) (s : Search) : Prop where
  nodup : (s.stack ++ s.done).Nodup
  closed : ∀ x ∈ s.done, ∀ y, g.Calls x y → y ∈ s.done
  components : ∀ c ∈ s.components, g.IsComponent c

/-- A function that was looked at from above `base`: it is completed, one of the new functions on
the stack, or at height `low` or more in the base. -/
def Seen (base new : List String) (low : Nat) (s : Search) (y : String) : Prop :=
  y ∈ s.done ∨ y ∈ new ∨ ∃ i, low ≤ i ∧ base.reverse[i]? = some y

/-- The search has left the functions `new` on the stack above `base` and has looked at all their
calls, seeing nothing in the base below height `low`. -/
structure Explored (g : CallGraph) (base new : List String) (low : Nat) (s : Search) : Prop where
  stack : s.stack = new ++ base
  sound : Sound g s
  calls : ∀ x ∈ new, ∀ y, g.Calls x y → Seen base new low s y
  sinks : Sinks g new base

section Explored

variable {g : CallGraph} {base new new' : List String} {low low' : Nat} {s s' : Search} {y : String}

theorem getElem?_reverse_append {i : Nat} (h : (new ++ base).reverse[i]? = some y) :
    y ∈ new ∨ base.reverse[i]? = some y := by
  rw [List.reverse_append] at h
  rcases Nat.lt_or_ge i base.reverse.length with hi | hi
  · exact .inr (by rwa [List.getElem?_append_left hi] at h)
  · rw [List.getElem?_append_right hi] at h
    exact .inl (List.mem_reverse.1 (List.mem_of_getElem? h))

/-- What was seen is still seen when more has been put on the stack. -/
theorem Seen.grow (h : Seen base new low s y) (hdone : s.done ⊆ s'.done) (hlow : low' ≤ low) :
    Seen base (new' ++ new) low' s' y := by
  rcases h with h | h | ⟨i, hi, hy⟩
  · exact .inl (hdone h)
  · exact .inr (.inl (List.mem_append_right _ h))
  · exact .inr (.inr ⟨i, hlow.trans hi, hy⟩)

/-- What was seen from above `new ++ base` was seen from above `base`. -/
theorem Seen.lower (h : Seen (new ++ base) new' low s y) (hlow : low' ≤ low) :
    Seen base (new' ++ new) low' s y := by
  rcases h with h | h | ⟨i, hi, hy⟩
  · exact .inl h
  · exact .inr (.inl (List.mem_append_left _ h))
  · rcases getElem?_reverse_append hy with hy | hy
    · exact .inr (.inl (List.mem_append_right _ hy))
    · exact .inr (.inr ⟨i, hlow.trans hi, hy⟩)

theorem Explored.trans (h : Explored g base new low s)
    (h' : Explored g (new ++ base) new' low' s') (hdone : s.done ⊆ s'.done) :
    Explored g base (new' ++ new) (min low low') s' where
  stack := by rw [h'.stack, List.append_assoc]
  sound := h'.sound
  calls x hx y hy := by
    rcases List.mem_append.1 hx with hx | hx
    · exact (h'.calls x hx y hy).lower (Nat.min_le_right low low')
    · exact (h.calls x hx y hy).grow hdone (Nat.min_le_left low low')
  sinks := sinks_append.2 ⟨h'.sinks, h.sinks⟩

theorem Explored.mono (h : Explored g base new low s) (hlow : low' ≤ low) :
    Explored g base new low' s where
  stack := h.stack
  sound := h.sound
  calls x hx y hy :=
    @Seen.grow base new [] low low' s s y (h.calls x hx y hy) (List.Subset.refl _) hlow
  sinks := h.sinks

theorem getElem?_reverse_of_lt {i : Nat} (h : i < base.length) :
    (new ++ base).reverse[i]? = base.reverse[i]? := by
  rw [List.reverse_append, List.getElem?_append_left (by simpa using h)]

/-- Functions on top of the stack that call only themselves and completed ones are a component, if
the lowest of them reaches the others and the others reach below themselves. -/
theorem Sound.isComponent {name : String} (h : Sound g s) (hstack : s.stack = new ++ name :: base)
    (hcalls : ∀ x ∈ new ++ [name], ∀ y, g.Calls x y → y ∈ s.done ∨ y ∈ new ++ [name])
    (hsink : Sinks g new (name :: base)) (hreached : ∀ x ∈ new, g.Reaches name x) :
    g.IsComponent (new ++ [name]) := by
  have hnodup : ((new ++ [name] ++ base) ++ s.done).Nodup := by simpa [hstack] using h.nodup
  rw [List.nodup_append, List.nodup_append] at hnodup
  obtain ⟨⟨-, -, hbase⟩, -, hdone⟩ := hnodup
  have hclosed : ∀ x ∈ new ++ [name] ++ s.done, ∀ y, g.Calls x y → y ∈ new ++ [name] ++ s.done := by
    intro x hx y hy
    rw [List.mem_append] at hx ⊢
    rcases hx with hx | hx
    · exact (hcalls x hx y hy).symm
    · exact .inr (h.closed x hx y hy)
  have hinside : ∀ x ∈ new ++ [name], ∀ y, g.Reaches x y → y ∈ new ++ [name] ∨ y ∈ s.done :=
    fun x hx y hr => List.mem_append.1 (hr.mem hclosed (List.mem_append_left _ hx))
  -- a chain of calls from the component cannot come back to it once it has left it
  have hback : ∀ y ∈ s.done, ∀ x ∈ new ++ [name], ¬ g.Reaches y x := fun y hy x hx hr =>
    hdone x (List.mem_append_left _ hx) x (hr.mem h.closed hy) rfl
  have hto : ∀ x ∈ new ++ [name], g.Reaches x name := by
    intro x hx
    rw [List.mem_append, List.mem_singleton] at hx
    rcases hx with hx | rfl
    · refine hsink.reaches (fun x hx z hz hr => ?_) x hx
      rcases hinside x (List.mem_append_left _ hx) z hr with hin | hin
      · exact hbase z hin z hz rfl
      · exact hdone z (List.mem_append_right _ hz) z hin rfl
    · exact Relation.ReflTransGen.refl
  have hfrom : ∀ x ∈ new ++ [name], g.Reaches name x := by
    intro x hx
    rw [List.mem_append, List.mem_singleton] at hx
    rcases hx with hx | rfl
    · exact hreached x hx
    · exact Relation.ReflTransGen.refl
  refine ⟨by simp, fun x hx y => ⟨fun hy => ?_, fun hy => ?_⟩⟩
  · exact ⟨(hto x hx).trans (hfrom y hy), (hto y hy).trans (hfrom x hx)⟩
  · exact (hinside x hx y hy.1).resolve_right fun hin => hback y hin x hx hy.2

theorem complete_eq {name : String} (hstack : s.stack = new ++ name :: base) :
    s.complete base.length = ⟨base, s.components ++ [new ++ [name]]⟩ := by
  have hlen : s.stack.length - base.length = (new ++ [name]).length := by
    rw [hstack]
    simp
    omega
  have hsplit : s.stack = (new ++ [name]) ++ base := by simpa using hstack
  simp only [Search.complete, hlen]
  rw [hsplit, List.drop_left, List.take_left]

theorem done_append (base : List String) (components : List (List String)) (c : List String) :
    (Search.mk base (components ++ [c])).done = components.flatten ++ c := by
  simp [Search.done]

theorem Sound.complete {name : String} (h : Sound g s) (hstack : s.stack = new ++ name :: base)
    (hcalls : ∀ x ∈ new ++ [name], ∀ y, g.Calls x y → y ∈ s.done ∨ y ∈ new ++ [name])
    (hsink : Sinks g new (name :: base)) (hreached : ∀ x ∈ new, g.Reaches name x) :
    Sound g ⟨base, s.components ++ [new ++ [name]]⟩ where
  nodup := by
    have hsplit : s.stack ++ s.done = (new ++ [name]) ++ (base ++ s.done) := by simp [hstack]
    have hnodup := h.nodup
    rw [hsplit, List.perm_append_comm.nodup_iff, List.append_assoc] at hnodup
    rwa [done_append]
  closed x hx y hy := by
    rw [done_append, List.mem_append] at hx ⊢
    rcases hx with hx | hx
    · exact .inl (h.closed x hx y hy)
    · exact hcalls x hx y hy
  components c hc := by
    rcases List.mem_append.1 hc with hc | hc
    · exact h.components c hc
    · rw [List.mem_singleton.1 hc]
      exact h.isComponent hstack hcalls hsink hreached

end Explored

/-! ### Visits -/

/-- What a visit of `name` from the state `s` leaves behind. -/
structure Visited (g : CallGraph) (name : String) (s : Search) (after : Nat × Search)
    (new : List String) : Prop where
  explored : Explored g s.stack new after.1 after.2
  done_subset : s.done ⊆ after.2.done
  entered : name ∈ new ∨ name ∈ after.2.done
  reached : ∀ x ∈ new, g.Reaches name x
  low_reached : after.1 < s.stack.length →
    ∃ z, s.stack.reverse[after.1]? = some z ∧ g.Reaches name z

/-- What looking at the callees `cs` of `name` leaves behind, after `name` was put on the stack of
`s`. -/
structure Scanned (g : CallGraph) (name : String) (s : Search) (cs : List String)
    (seen : Nat × Search) (new : List String) : Prop where
  explored : Explored g (name :: s.stack) new seen.1 seen.2
  done_subset : s.done ⊆ seen.2.done
  low_le : seen.1 ≤ s.stack.length
  callees : ∀ y ∈ cs, Seen (name :: s.stack) new seen.1 seen.2 y
  reached : ∀ x ∈ new, g.Reaches name x
  low_reached : seen.1 < s.stack.length →
    ∃ z, s.stack.reverse[seen.1]? = some z ∧ g.Reaches name z

section Visits

variable {g : CallGraph} {name : String} {s : Search} {cs : List String} {seen : Nat × Search}
  {new : List String}

theorem Scanned.start (h : Sound g s) (hname : s.entered name = false) :
    Scanned g name s [] (s.stack.length, s.push name) [] where
  explored := by
    rw [Search.not_entered_iff] at hname
    refine ⟨rfl, ⟨?_, h.closed, h.components⟩, by simp, trivial⟩
    exact List.nodup_cons.2 ⟨by simpa [Search.push, Search.done] using hname, h.nodup⟩
  done_subset := List.Subset.refl _
  low_le := le_rfl
  callees := by simp
  reached := by simp
  low_reached hlt := absurd hlt (lt_irrefl _)

/-- The least height seen, when something at height `i` is seen from `name` as well. -/
theorem Scanned.low_reached_min (h : Scanned g name s cs seen new) {i : Nat}
    (hi : i < s.stack.length → ∃ z, s.stack.reverse[i]? = some z ∧ g.Reaches name z)
    (hlt : min seen.1 i < s.stack.length) :
    ∃ z, s.stack.reverse[min seen.1 i]? = some z ∧ g.Reaches name z := by
  rcases Nat.le_total seen.1 i with hle | hle
  · rw [Nat.min_eq_left hle] at hlt ⊢
    exact h.low_reached hlt
  · rw [Nat.min_eq_right hle] at hlt ⊢
    exact hi hlt

/-- The height of a function that lies on the stack below `name`. -/
theorem Scanned.getElem?_stack (h : Scanned g name s cs seen new) {i : Nat}
    (hi : i < s.stack.length) : seen.2.stack.reverse[i]? = s.stack.reverse[i]? := by
  have hsplit : seen.2.stack = (new ++ [name]) ++ s.stack := by
    rw [h.explored.stack]
    simp
  rw [hsplit, getElem?_reverse_of_lt hi]

theorem Scanned.look_stacked (h : Scanned g name s cs seen new) {y : String} {i : Nat}
    (hy : g.Calls name y) (hi : seen.2.height? y = some i) :
    Scanned g name s (cs ++ [y]) (min seen.1 i, seen.2) new where
  explored := h.explored.mono (Nat.min_le_left _ _)
  done_subset := h.done_subset
  low_le := (Nat.min_le_left _ _).trans h.low_le
  callees := by
    have hheight := Search.getElem?_of_height? hi
    rw [h.explored.stack] at hheight
    refine List.forall_mem_append.2 ⟨fun c hc => ?_, List.forall_mem_singleton.2 ?_⟩
    · exact @Seen.grow _ _ [] _ _ _ _ _ (h.callees c hc) (List.Subset.refl _) (Nat.min_le_left _ _)
    · rcases getElem?_reverse_append hheight with hnew | hbase
      · exact .inr (.inl hnew)
      · exact .inr (.inr ⟨i, Nat.min_le_right _ _, hbase⟩)
  reached := h.reached
  low_reached := h.low_reached_min fun hlt =>
    ⟨y, by rw [← h.getElem?_stack hlt, Search.getElem?_of_height? hi], .of_calls hy⟩

theorem Scanned.look_done (h : Scanned g name s cs seen new) {y : String} (hy : y ∈ seen.2.done) :
    Scanned g name s (cs ++ [y]) seen new where
  explored := h.explored
  done_subset := h.done_subset
  low_le := h.low_le
  callees := List.forall_mem_append.2 ⟨h.callees, List.forall_mem_singleton.2 (.inl hy)⟩
  reached := h.reached
  low_reached := h.low_reached

theorem Scanned.look_visited (h : Scanned g name s cs seen new) {y : String}
    {after : Nat × Search} {new' : List String} (hy : g.Calls name y)
    (hv : Visited g y seen.2 after new') :
    Scanned g name s (cs ++ [y]) (min seen.1 after.1, after.2) (new' ++ new) where
  explored := by
    have hafter := hv.explored
    rw [h.explored.stack] at hafter
    exact h.explored.trans hafter hv.done_subset
  done_subset := List.Subset.trans h.done_subset hv.done_subset
  low_le := (Nat.min_le_left _ _).trans h.low_le
  callees := by
    refine List.forall_mem_append.2 ⟨fun c hc => ?_, List.forall_mem_singleton.2 ?_⟩
    · exact (h.callees c hc).grow hv.done_subset (Nat.min_le_left _ _)
    · rcases hv.entered with hnew | hdone
      · exact .inr (.inl (List.mem_append_left _ hnew))
      · exact .inl hdone
  reached := List.forall_mem_append.2
    ⟨fun x hx => (Reaches.of_calls hy).trans (hv.reached x hx), h.reached⟩
  low_reached := h.low_reached_min fun hlt => by
    have hlen : s.stack.length ≤ seen.2.stack.length := by
      rw [h.explored.stack, List.length_append, List.length_cons]
      omega
    obtain ⟨z, hz, hr⟩ := hv.low_reached (hlt.trans_le hlen)
    exact ⟨z, by rw [← h.getElem?_stack hlt, hz], (Reaches.of_calls hy).trans hr⟩

/-- A function that sees below itself stays on the stack, with all that was left above it. -/
theorem Scanned.keep (h : Scanned g name s (g.callees name) seen new)
    (hlt : seen.1 < s.stack.length) : Visited g name s seen (new ++ [name]) where
  explored := by
    refine ⟨by rw [h.explored.stack, List.append_assoc]; rfl, h.explored.sound, ?_, ?_⟩
    · refine List.forall_mem_append.2 ⟨fun x hx y hy => ?_, List.forall_mem_singleton.2 ?_⟩
      · exact Seen.lower (h.explored.calls x hx y hy) le_rfl
      · exact fun y hy => Seen.lower (h.callees y hy) le_rfl
    · obtain ⟨z, hz, hr⟩ := h.low_reached hlt
      have hmem : z ∈ s.stack := List.mem_reverse.1 (List.mem_of_getElem? hz)
      exact sinks_append.2 ⟨h.explored.sinks, ⟨z, hmem, hr⟩, trivial⟩
  done_subset := h.done_subset
  entered := .inl (by simp)
  reached := List.forall_mem_append.2
    ⟨h.reached, List.forall_mem_singleton.2 Relation.ReflTransGen.refl⟩
  low_reached := h.low_reached

/-- A function that sees nothing below itself is completed, with all that was left above it. -/
theorem Scanned.finish (h : Scanned g name s (g.callees name) seen new)
    (hlow : ¬ seen.1 < s.stack.length) :
    Visited g name s (seen.1, seen.2.complete s.stack.length) [] := by
  have heq : seen.1 = s.stack.length := Nat.le_antisymm h.low_le (Nat.le_of_not_lt hlow)
  have hcalls : ∀ x ∈ new ++ [name], ∀ y, g.Calls x y → y ∈ seen.2.done ∨ y ∈ new ++ [name] := by
    intro x hx y hy
    have hseen : Seen s.stack (new ++ [name]) s.stack.length seen.2 y := by
      rw [← heq]
      rcases List.mem_append.1 hx with hx | hx
      · exact Seen.lower (h.explored.calls x hx y hy) le_rfl
      · rw [List.mem_singleton.1 hx] at hy
        exact Seen.lower (h.callees y hy) le_rfl
    rcases hseen with hdone | hnew | ⟨i, hi, hget⟩
    · exact .inl hdone
    · exact .inr hnew
    · rw [List.getElem?_eq_none (by simpa using hi)] at hget
      simp at hget
  have hsound := h.explored.sound.complete h.explored.stack hcalls h.explored.sinks h.reached
  rw [complete_eq h.explored.stack]
  refine ⟨⟨rfl, hsound, by simp, trivial⟩, ?_, .inr ?_, by simp, fun hlt => absurd hlt hlow⟩
  · rw [done_append]
    exact List.Subset.trans h.done_subset (List.subset_append_left _ _)
  · rw [done_append]
    simp

theorem Scanned.look {visit : String → Search → Nat × Search}
    (h : Scanned g name s cs seen new) {y : String} (hy : g.Calls name y)
    (hv : seen.2.entered y = false → ∃ new', Visited g y seen.2 (visit y seen.2) new') :
    ∃ new', Scanned g name s (cs ++ [y]) (look visit seen y) new' := by
  unfold CallGraph.look
  split_ifs with hentered
  · split
    · next i hi => exact ⟨new, h.look_stacked hy hi⟩
    · next hi =>
      have hdone := (Search.entered_iff.1 hentered).resolve_left (Search.not_mem_of_height? hi)
      exact ⟨new, h.look_done hdone⟩
  · obtain ⟨new', hafter⟩ := hv (by simpa using hentered)
    exact ⟨new' ++ new, h.look_visited hy hafter⟩

/-- Looking at one callee after the other, with fuel for all functions not entered yet. -/
theorem Scanned.foldl {fuel : Nat} (hg : g.Closed)
    (hv : ∀ y s, Sound g s → y ∈ g.nodes → s.entered y = false → s.pending g ≤ fuel →
      ∃ new, Visited g y s (visit g fuel y s) new)
    {rest : List String} (hrest : ∀ y ∈ rest, g.Calls name y)
    (h : Scanned g name s cs seen new) (hpending : seen.2.pending g ≤ fuel) :
    ∃ new', Scanned g name s (cs ++ rest)
      (rest.foldl (CallGraph.look (visit g fuel)) seen) new' := by
  induction rest generalizing cs seen new with
  | nil => exact ⟨new, by simpa using h⟩
  | cons y rest ih =>
    rw [List.forall_mem_cons] at hrest
    obtain ⟨new', hnext⟩ := h.look hrest.1 fun hy =>
      hv y seen.2 h.explored.sound (hg name y hrest.1) hy hpending
    have hle : (CallGraph.look (visit g fuel) seen y).2.pending g ≤ seen.2.pending g :=
      Search.pending_mono fun x hx => entered_look (entered_visit fuel) seen y hx
    rw [List.foldl_cons, List.append_cons]
    exact ih hrest.2 hnext (hle.trans hpending)

/-- A visit leaves behind what it should, if there is fuel for all functions not entered yet. -/
theorem visit_spec (hg : g.Closed) (fuel : Nat) (name : String) (s : Search) (h : Sound g s)
    (hn : name ∈ g.nodes) (hs : s.entered name = false) (hfuel : s.pending g ≤ fuel) :
    ∃ new, Visited g name s (visit g fuel name s) new := by
  induction fuel generalizing name s with
  | zero =>
    have := Search.pending_push hn hs
    omega
  | succ fuel ih =>
    have hpush := Search.pending_push hn hs
    obtain ⟨new, hall⟩ := (Scanned.start h hs).foldl hg ih (fun y hy => hy) (by simp only; omega)
    rw [List.nil_append] at hall
    simp only [visit]
    split_ifs with hlow
    · exact ⟨new ++ [name], hall.keep hlow⟩
    · exact ⟨[], hall.finish hlow⟩

end Visits

/-! ### The whole search -/

/-- Nothing is left on an empty stack, for it would have to reach below itself. -/
theorem Sinks.eq_nil {g : CallGraph} {new : List String} (h : Sinks g new []) : new = [] := by
  rcases List.eq_nil_or_concat new with hnil | ⟨rest, x, rfl⟩
  · exact hnil
  · rw [List.concat_eq_append, sinks_append] at h
    obtain ⟨z, hz, -⟩ := h.2.1
    simp at hz

theorem searchFrom_spec {g : CallGraph} (hg : g.Closed) {s : Search} (h : Sound g s)
    (hstack : s.stack = []) {name : String} (hn : name ∈ g.nodes) :
    Sound g (searchFrom g s name) ∧ (searchFrom g s name).stack = [] ∧
      s.done ⊆ (searchFrom g s name).done ∧ name ∈ (searchFrom g s name).done := by
  unfold searchFrom
  split_ifs with hs
  · refine ⟨h, hstack, List.Subset.refl _, ?_⟩
    simpa [Search.entered_iff, hstack] using hs
  · obtain ⟨new, hv⟩ :=
      visit_spec hg g.length name s h hn (by simpa using hs) s.pending_le
    have hexplored := hv.explored
    rw [hstack] at hexplored
    have hnew : new = [] := hexplored.sinks.eq_nil
    subst hnew
    exact ⟨hexplored.sound, hexplored.stack, hv.done_subset, by simpa using hv.entered⟩

theorem foldl_searchFrom_spec {g : CallGraph} (hg : g.Closed) {names : List String}
    (hnames : ∀ x ∈ names, x ∈ g.nodes) {s : Search} (h : Sound g s) (hstack : s.stack = []) :
    Sound g (names.foldl (searchFrom g) s) ∧ s.done ⊆ (names.foldl (searchFrom g) s).done ∧
      ∀ x ∈ names, x ∈ (names.foldl (searchFrom g) s).done := by
  induction names generalizing s with
  | nil => exact ⟨h, List.Subset.refl _, by simp⟩
  | cons name names ih =>
    rw [List.forall_mem_cons] at hnames
    obtain ⟨hsound, hnil, hsub, hname⟩ := searchFrom_spec hg h hstack hnames.1
    obtain ⟨hfinal, hgrow, hall⟩ := ih hnames.2 hsound hnil
    exact ⟨hfinal, List.Subset.trans hsub hgrow, List.forall_mem_cons.2 ⟨hgrow hname, hall⟩⟩

section Components

variable {g : CallGraph}

theorem search_spec (hg : g.Closed) : Sound g (g.nodes.foldl (searchFrom g) ⟨[], []⟩) ∧
    ∀ x ∈ g.nodes, x ∈ (g.nodes.foldl (searchFrom g) ⟨[], []⟩).done := by
  have hstart : Sound g ⟨[], []⟩ := ⟨by simp [Search.done], by simp [Search.done], by simp⟩
  have h := foldl_searchFrom_spec hg (fun _ hx => hx) hstart rfl
  exact ⟨h.1, h.2.2⟩

theorem isComponent_of_mem (hg : g.Closed) {c : List String} (hc : c ∈ g.components) :
    g.IsComponent c :=
  (search_spec hg).1.components c hc

theorem components_nodup (hg : g.Closed) : g.components.flatten.Nodup :=
  (List.nodup_append.1 (search_spec hg).1.nodup).2.1

/-- Every function stands in some component. -/
theorem exists_component (hg : g.Closed) {x : String} (hx : x ∈ g.nodes) :
    ∃ c ∈ g.components, x ∈ c :=
  List.mem_flatten.1 ((search_spec hg).2 x hx)

/-- Searches from a function with any amount of fuel. -/
def searchWithin (g : CallGraph) (fuel : Nat) (s : Search) (name : String) : Search :=
  if s.entered name then s else (visit g fuel name s).2

/-- The components as a search with any amount of fuel finds them. -/
def componentsWithin (g : CallGraph) (fuel : Nat) : List (List String) :=
  (g.nodes.foldl (searchWithin g fuel) ⟨[], []⟩).components

/-- The search is never cut short: fuel beyond the number of functions changes nothing. -/
theorem componentsWithin_eq (hg : g.Closed) {fuel : Nat} (hfuel : g.length ≤ fuel) :
    g.componentsWithin fuel = g.components := by
  have hvisit : ∀ s, ∀ name ∈ g.nodes, searchWithin g fuel s name = searchFrom g s name := by
    intro s name hn
    unfold searchWithin searchFrom
    split_ifs with hs
    · rfl
    · congr 1
      induction hfuel with
      | refl => rfl
      | step hle ih =>
        rw [← ih]
        exact visit_fuel hg _ name s hn (by simpa using hs) (s.pending_le.trans hle)
  unfold componentsWithin components
  rw [List.foldl_ext _ _ _ hvisit]
  rfl

end Components

end StrictnessAnalysis.CallGraph
