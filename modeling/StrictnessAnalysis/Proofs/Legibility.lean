import Mathlib.Algebra.Group.Nat.Defs
import Mathlib.Data.List.Nodup
import Mathlib.Data.Nat.Init
import Mathlib.Tactic.SplitIfs
import StrictnessAnalysis.Text.Layout
import StrictnessAnalysis.Text.Quoted

/-! Writings that can be read. A writing is legible if its text, at the front of any longer one,
tells both what is written and where the writing ends. A quoted text is legible whatever it holds:
the quote in use is escaped, and what stands behind a backslash tells which kind of escape it is. A
decimal number is legible up to the parenthesis behind it, and a tuple if its members are. -/

namespace StrictnessAnalysis.Text

/-- The writing of `a`, at the front of a text, tells `a` and what follows it. -/
def Legible {α : Type} (write : α → List Char) (a : α) : Prop :=
  ∀ ⦃b : α⦄ ⦃rest rest' : List Char⦄, write a ++ rest = write b ++ rest' → a = b ∧ rest = rest'

section

variable {α : Type} {write : α → List Char} {a : α}

theorem Legible.eq_of_eq {a' : α} (ha : Legible write a) (h : write a = write a') : a = a' :=
  (ha (congrArg (· ++ []) h)).1

theorem Legible.after (ha : Legible write a) (lead : List Char) :
    Legible (fun a => lead ++ write a) a := by
  intro a' rest rest' h
  simp only [List.append_assoc, List.append_cancel_left_eq] at h
  exact ha h

/-- Members one after the other are legible if each is, and if none starts like the end. -/
theorem legible_flatMap {stop : Char} {items : List α}
    (hstop : ∀ a rest rest', write a ++ rest ≠ stop :: rest')
    (hitems : ∀ a ∈ items, Legible write a) :
    Legible (fun items => items.flatMap write ++ [stop]) items := by
  intro items' rest rest' h
  simp only [List.append_assoc, List.singleton_append] at h
  induction items generalizing items' with
  | nil =>
    cases items' with
    | nil => exact ⟨rfl, List.tail_eq_of_cons_eq h⟩
    | cons a' items' =>
      rw [List.flatMap_cons, List.append_assoc] at h
      exact absurd h.symm (hstop a' _ _)
  | cons a items ih =>
    rw [List.flatMap_cons, List.append_assoc] at h
    cases items' with
    | nil => exact absurd h (hstop a _ _)
    | cons a' items' =>
      rw [List.flatMap_cons, List.append_assoc] at h
      rw [List.forall_mem_cons] at hitems
      obtain ⟨rfl, htail⟩ := hitems.1 h
      obtain ⟨rfl, hrest⟩ := ih hitems.2 htail
      exact ⟨rfl, hrest⟩

/-- Two texts are told apart up to a character that neither holds. -/
theorem append_cons_inj_of_not_mem {stop : Char} {s s' rest rest' : List Char} (hs : stop ∉ s)
    (hs' : stop ∉ s') (h : s ++ stop :: rest = s' ++ stop :: rest') : s = s' ∧ rest = rest' := by
  have htake : ∀ s rest : List Char, stop ∉ s →
      (s ++ stop :: rest).takeWhile (· ≠ stop) = s := by
    intro s rest hs
    have hne : ∀ c ∈ s, decide (c ≠ stop) = true :=
      fun c hc => decide_eq_true (ne_of_mem_of_not_mem hc hs)
    rw [List.takeWhile_append_of_pos hne]
    simp
  have heq : s = s' := by rw [← htake s rest hs, h, htake s' rest' hs']
  subst heq
  exact ⟨rfl, List.tail_eq_of_cons_eq (List.append_cancel_left h)⟩

end

/-! ### Numbers -/

theorem isDigit_of_mem_repr {m : Nat} {c : Char} (h : c ∈ m.repr.toList) : c.isDigit := by
  rw [Nat.toList_repr] at h
  exact Nat.isDigit_of_mem_toDigits (by decide) (by decide) h

theorem repr_inj {m n : Nat} (h : m.repr.toList = n.repr.toList) : m = n := by
  have hread (k : Nat) : Nat.ofDigitChars 10 k.repr.toList 0 = k := by
    rw [Nat.toList_repr]
    exact Nat.ofDigitChars_toDigits (by decide) (by decide)
  rw [← hread m, h, hread n]

/-- A number in decimal consists of digits, with a minus before them if it is negative. -/
theorem toList_toString (n : Int) : (toString n).toList =
    if 0 ≤ n then n.toNat.repr.toList else '-' :: (-n).toNat.repr.toList := by
  rw [Int.toString_eq_repr, Int.repr_eq_if]
  split
  · rfl
  · rw [String.toList_append]
    rfl

theorem isDigit_or_minus_of_mem_toString {n : Int} {c : Char} (h : c ∈ (toString n).toList) :
    c.isDigit ∨ c = '-' := by
  rw [toList_toString] at h
  split at h
  · exact .inl (isDigit_of_mem_repr h)
  · rcases List.mem_cons.1 h with h | h
    · exact .inr h
    · exact .inl (isDigit_of_mem_repr h)

theorem toString_inj {m n : Int} (h : (toString m).toList = (toString n).toList) : m = n := by
  have hminus : ∀ k : Nat, '-' ∉ k.repr.toList := fun k hmem =>
    absurd (isDigit_of_mem_repr hmem) (by decide)
  rw [toList_toString, toList_toString] at h
  split at h <;> split at h
  · have := repr_inj h
    omega
  · exact absurd (h ▸ List.mem_cons_self) (hminus _)
  · exact absurd (h ▸ List.mem_cons_self) (hminus _)
  · have := repr_inj (List.tail_eq_of_cons_eq h)
    omega

/-- A number in decimal is legible up to a closing parenthesis. -/
theorem legible_decimal (n : Int) : Legible (fun n : Int => (toString n).toList ++ [')']) n := by
  intro m rest rest' h
  have hnot : ∀ n : Int, ')' ∉ (toString n).toList := by
    intro n hmem
    rcases isDigit_or_minus_of_mem_toString hmem with h | h
    · exact absurd h (by decide)
    · exact absurd h (by decide)
  simp only [List.append_assoc, List.singleton_append] at h
  obtain ⟨hdigits, hrest⟩ := append_cons_inj_of_not_mem (hnot n) (hnot m) h
  exact ⟨toString_inj hdigits, hrest⟩

/-! ### Quoted texts -/

namespace Quoted

theorem length_hex {width n : Nat} (hwidth : 0 < width) (hn : n < 16 ^ width) :
    (hex width n).length = width := by
  have hle := (Nat.length_toDigits_le_iff (by decide : 1 < 16) hwidth).2 hn
  simp only [hex, List.length_append, List.length_replicate]
  omega

/-- Padded to a width, a number ends with its last digit. -/
theorem hex_succ {width n : Nat} (hwidth : 0 < width) :
    hex (width + 1) n = hex width (n / 16) ++ [Nat.digitChar (n % 16)] := by
  rcases Nat.lt_or_ge n 16 with hn | hn
  · have hzero : n / 16 = 0 := by omega
    have hlast : n % 16 = n := by omega
    obtain ⟨width, rfl⟩ : ∃ w, width = w + 1 := ⟨width - 1, by omega⟩
    rw [hzero, hlast, hex, hex, Nat.toDigits_of_lt_base hn, Nat.toDigits_zero]
    simp [List.replicate_succ']
  · rw [hex, hex, Nat.toDigits_of_base_le (by decide) hn]
    simp

theorem digitChar_inj {m n : Nat} (hm : m < 16) (hn : n < 16)
    (h : Nat.digitChar m = Nat.digitChar n) : m = n := by
  have hall : ∀ m < 16, ∀ n < 16, Nat.digitChar m = Nat.digitChar n → m = n := by decide
  exact hall m hm n hn h

theorem hex_inj {width m n : Nat} (hwidth : 0 < width) (hm : m < 16 ^ width) (hn : n < 16 ^ width)
    (h : hex width m = hex width n) : m = n := by
  induction width, hwidth using Nat.le_induction generalizing m n with
  | base =>
    rw [Nat.pow_one] at hm hn
    rw [hex, hex, Nat.toDigits_of_lt_base hm, Nat.toDigits_of_lt_base hn] at h
    exact digitChar_inj hm hn (by simpa using h)
  | succ width hwidth ih =>
    rw [hex_succ hwidth, hex_succ hwidth] at h
    obtain ⟨hinit, hlast⟩ := List.append_inj' h rfl
    have hdiv : m / 16 = n / 16 := ih (by omega) (by omega) hinit
    have hmod : m % 16 = n % 16 :=
      digitChar_inj (by omega) (by omega) (by simpa using hlast)
    omega

/-- What may stand behind a backslash in place of another character, with that character. -/
def marks (quote : Char) : List (Char × Char) :=
  [(quote, quote), (backslash, backslash), ('n', '\n'), ('r', '\r'), ('t', '\t')]

/-- What stands between a backslash and the code of a character, with the width of the code. -/
def codes : List (Char × Nat) := [('x', 2), ('u', 4), ('U', 8)]

/-- How a character is written between quotes. -/
inductive Written (quote c : Char) : List Char → Prop
  | itself : c ≠ quote → c ≠ backslash → Written quote c [c]
  | marked {mark : Char} : (mark, c) ∈ marks quote → Written quote c [backslash, mark]
  | coded {mark : Char} {width : Nat} : (mark, width) ∈ codes → c.toNat < 16 ^ width →
      Written quote c (backslash :: mark :: hex width c.toNat)

theorem written_escape (quote c : Char) : Written quote c (escape quote c) := by
  unfold escape
  split_ifs with hself hn hr ht hprintable hx hu
  · rcases hself with rfl | rfl
    · exact .marked (by simp [marks])
    · exact .marked (by simp [marks])
  · exact .marked (by simp [marks, hn])
  · exact .marked (by simp [marks, hr])
  · exact .marked (by simp [marks, ht])
  · rw [not_or] at hself
    exact .itself hself.1 hself.2
  · exact .coded (by simp [codes]) hx
  · exact .coded (by simp [codes]) hu
  · have hmax : c.toNat < 0x110000 := by
      rcases c.valid with h | h
      · exact Nat.lt_trans h (by decide)
      · exact h.2
    exact .coded (by simp [codes]) (Nat.lt_trans hmax (by decide))

theorem quoteFor_eq (s : List Char) : quoteFor s = singleQuote ∨ quoteFor s = doubleQuote := by
  unfold quoteFor
  split
  · exact .inr rfl
  · exact .inl rfl

theorem pos_of_mem_codes {mark : Char} {width : Nat} (h : (mark, width) ∈ codes) : 0 < width := by
  simp only [codes, List.mem_cons, Prod.mk.injEq, List.not_mem_nil, or_false] at h
  omega

section

variable {quote c c' : Char} {s s' rest rest' : List Char}
  (hquote : quote = singleQuote ∨ quote = doubleQuote)

include hquote

theorem backslash_ne : backslash ≠ quote := by
  rcases hquote with rfl | rfl <;> decide

/-- What stands behind a backslash tells how to go on. -/
theorem nodup_marks : ((marks quote).map Prod.fst ++ codes.map Prod.fst).Nodup := by
  rcases hquote with rfl | rfl <;> decide

/-- What is written for a character, at the front of a text, tells the character. -/
theorem Written.inj (hs : Written quote c s) (hs' : Written quote c' s')
    (h : s ++ rest = s' ++ rest') : c = c' ∧ rest = rest' := by
  obtain ⟨hmarks, hcodes, hdisjoint⟩ := List.nodup_append.1 (nodup_marks hquote)
  cases hs with
  | itself _ hc =>
    cases hs' with
    | itself _ _ => simpa using h
    | marked _ => exact absurd (List.head_eq_of_cons_eq h) hc
    | coded _ _ => exact absurd (List.head_eq_of_cons_eq h) hc
  | marked hmark =>
    cases hs' with
    | itself _ hc => exact absurd (List.head_eq_of_cons_eq h).symm hc
    | marked hmark' =>
      obtain ⟨rfl, rfl⟩ : _ = _ ∧ rest = rest' := by simpa using h
      have hentry := List.inj_on_of_nodup_map hmarks hmark hmark' rfl
      exact ⟨(Prod.mk.inj hentry).2, rfl⟩
    | coded hcode _ =>
      obtain ⟨rfl, -⟩ := List.cons.inj (List.tail_eq_of_cons_eq h)
      exact absurd rfl (hdisjoint _ (List.mem_map_of_mem hmark) _ (List.mem_map_of_mem hcode))
  | coded hcode hlt =>
    cases hs' with
    | itself _ hc => exact absurd (List.head_eq_of_cons_eq h).symm hc
    | marked hmark =>
      obtain ⟨rfl, -⟩ := List.cons.inj (List.tail_eq_of_cons_eq h)
      exact absurd rfl (hdisjoint _ (List.mem_map_of_mem hmark) _ (List.mem_map_of_mem hcode))
    | coded hcode' hlt' =>
      obtain ⟨rfl, hdigits⟩ := List.cons.inj (List.tail_eq_of_cons_eq h)
      have hentry := List.inj_on_of_nodup_map hcodes hcode hcode' rfl
      obtain rfl := (Prod.mk.inj hentry).2
      have hwidth := pos_of_mem_codes hcode
      -- codes of one width end at the same place
      have hlength := (length_hex hwidth hlt).trans (length_hex hwidth hlt').symm
      obtain ⟨hhex, hrest⟩ := List.append_inj hdigits hlength
      exact ⟨Char.toNat_inj.1 (hex_inj hwidth hlt hlt' hhex), hrest⟩

/-- No character is written so that it starts like the closing quote. -/
theorem Written.append_ne (hs : Written quote c s) : s ++ rest ≠ quote :: rest' := by
  intro h
  cases hs with
  | itself hc _ => exact hc (List.head_eq_of_cons_eq h)
  | marked _ => exact backslash_ne hquote (List.head_eq_of_cons_eq h)
  | coded _ _ => exact backslash_ne hquote (List.head_eq_of_cons_eq h)

end

/-- A quoted text is legible, whatever characters it holds. -/
theorem legible_encode (s : List Char) : Legible encode s := by
  intro s' rest rest' h
  simp only [encode, List.cons_append, List.cons.injEq] at h
  obtain ⟨hsame, hbody⟩ := h
  rw [← hsame] at hbody
  have hquote := quoteFor_eq s
  have hstop : ∀ c rest rest', escape (quoteFor s) c ++ rest ≠ quoteFor s :: rest' :=
    fun c _ _ => Written.append_ne hquote (written_escape _ c)
  have hchars : ∀ c ∈ s, Legible (escape (quoteFor s)) c :=
    fun c _ c' _ _ => Written.inj hquote (written_escape _ c) (written_escape _ c')
  exact legible_flatMap hstop hchars hbody

end Quoted

/-! ### Parts -/

section

variable {α β : Type} {write : α → List Char} {write' : β → List Char} {a : α} {b : β}

theorem Legible.pair (ha : Legible write a) (hb : Legible write' b) :
    Legible (fun p : α × β => commaSeparated [write p.1, write' p.2]) (a, b) := by
  rintro ⟨a', b'⟩ rest rest' h
  simp only [commaSeparated, List.append_assoc, List.cons_append] at h
  obtain ⟨rfl, hbehind⟩ := ha h
  obtain ⟨rfl, hrest⟩ := hb (by simpa using hbehind)
  exact ⟨rfl, hrest⟩

theorem commaSeparated_cons (part : List Char) (parts : List (List Char)) :
    commaSeparated (part :: parts) = part ++ parts.flatMap fun p => [',', ' '] ++ p := by
  induction parts generalizing part with
  | nil => simp [commaSeparated]
  | cons next parts ih =>
    rw [commaSeparated, ih, List.flatMap_cons]
    · simp
    · simp

/-- What stands behind the first comma of a tuple: its end, or the other members. -/
def tupleTail (write : α → List Char) : List α → List Char
  | [] => [')']
  | a :: items => ' ' :: write a ++ (items.flatMap fun a => [',', ' '] ++ write a) ++ [')']

theorem tuple_map_cons (a : α) (items : List α) :
    tuple ((a :: items).map write) = '(' :: write a ++ ',' :: tupleTail write items := by
  cases items with
  | nil => rfl
  | cons next items =>
    have hparts : commaSeparated ((a :: next :: items).map write) =
        write a ++ ((next :: items).map write).flatMap fun p => [',', ' '] ++ p :=
      commaSeparated_cons _ _
    rw [List.flatMap_map, List.flatMap_cons] at hparts
    change '(' :: commaSeparated ((a :: next :: items).map write) ++ [')'] = _
    rw [hparts]
    simp [tupleTail]

theorem legible_tupleTail {items : List α} (hitems : ∀ a ∈ items, Legible write a) :
    Legible (tupleTail write) items := by
  intro items' rest rest' h
  cases items with
  | nil =>
    cases items' with
    | nil => exact ⟨rfl, List.tail_eq_of_cons_eq h⟩
    | cons a' items' => exact absurd (List.head_eq_of_cons_eq h) (by decide)
  | cons a items =>
    cases items' with
    | nil => exact absurd (List.head_eq_of_cons_eq h) (by decide)
    | cons a' items' =>
      rw [List.forall_mem_cons] at hitems
      have hothers : Legible (fun items => (items.flatMap fun a => [',', ' '] ++ write a) ++ [')'])
          items :=
        legible_flatMap (by simp) fun a ha => (hitems.2 a ha).after [',', ' ']
      simp only [tupleTail, List.cons_append, List.append_assoc, List.cons.injEq, true_and] at h
      obtain ⟨rfl, htail⟩ := hitems.1 h
      obtain ⟨rfl, hrest⟩ := hothers (by simpa using htail)
      exact ⟨rfl, hrest⟩

/-- A tuple is legible if its members are, and if none starts like the end of an empty one. -/
theorem legible_tuple {items : List α} (hstop : ∀ a rest rest', write a ++ rest ≠ ')' :: rest')
    (hitems : ∀ a ∈ items, Legible write a) :
    Legible (fun items => tuple (items.map write)) items := by
  intro items' rest rest' h
  cases items with
  | nil =>
    cases items' with
    | nil => exact ⟨rfl, List.append_cancel_left h⟩
    | cons a' items' =>
      simp only [tuple_map_cons, List.cons_append, List.append_assoc] at h
      exact absurd (List.tail_eq_of_cons_eq h).symm (hstop a' _ _)
  | cons a items =>
    simp only [tuple_map_cons a items, List.cons_append, List.append_assoc] at h
    cases items' with
    | nil => exact absurd (List.tail_eq_of_cons_eq h) (hstop a _ _)
    | cons a' items' =>
      rw [List.forall_mem_cons] at hitems
      simp only [tuple_map_cons, List.cons_append, List.append_assoc, List.cons.injEq,
        true_and] at h
      obtain ⟨rfl, htail⟩ := hitems.1 h
      obtain ⟨rfl, hrest⟩ := legible_tupleTail hitems.2 (List.tail_eq_of_cons_eq htail)
      exact ⟨rfl, hrest⟩

end

end StrictnessAnalysis.Text
