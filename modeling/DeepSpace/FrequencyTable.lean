import DeepSpace.ReferenceCoder
import Mathlib.Algebra.BigOperators.Ring.Finset
import Mathlib.Algebra.Order.BigOperators.Group.List
import Mathlib.Algebra.Order.Ring.Int
import Mathlib.Data.List.Induction

/-!
# `scripts/arithmetic_coding.py`: `SimpleFrequencyTable`

A list of frequencies with its total, and the cumulative frequencies while they are known.

* `cumulLoop_eq`: the cumulative frequencies are the prefix sums;
* `set_cases`, `increment_cases`, `query_frequencies`: what a call can do to a table, in any state;
* `queries_ofReference`: with its sums known, a table is one of the reference coder's;
* `query_right_iff`: a query gives the right sum exactly if the call before it was a query;
* `updates_sound_iff`: updates that fail leave a table as it was in exactly the runs that increment
  symbols of the table only, and set none from behind.
-/

namespace DeepSpace.Frequencies

/-! ## The class -/

inductive Raised where
  | valueError (message : String)
  | indexError
  | assertionError
  deriving DecidableEq, Repr

structure SimpleFrequencyTable where
  frequencies : List Int
  total : Int
  cumulative : Option (List Int)
  deriving DecidableEq, Repr

/-- What a method returns or raises, and the object behind it. -/
abbrev Outcome (α : Type) := Except Raised α × SimpleFrequencyTable

/-- The place of index `i` in a list of `n`; a negative one counts from behind. -/
def index? (n : Nat) (i : Int) : Option Nat :=
  if 0 ≤ i ∧ i < n then some i.toNat
  else if -n ≤ i ∧ i < 0 then some (i + n).toNat
  else none

def item? (l : List Int) (i : Int) : Option Int := (index? l.length i).bind (l[·]?)

namespace SimpleFrequencyTable

/-- `__init__` of a sequence. -/
def init (freqs : List Int) : Except Raised SimpleFrequencyTable :=
  if freqs.length < 1 then .error (.valueError "At least 1 symbol needed")
  else if freqs.any (· < 0) then .error (.valueError "Negative frequency")
  else .ok ⟨freqs, freqs.sum, none⟩

def set (symbol freq : Int) (s : SimpleFrequencyTable) : Outcome Unit :=
  if freq < 0 then (.error (.valueError "Negative frequency"), s)
  else
    match index? s.frequencies.length symbol with
    | none => (.error .indexError, s)
    | some k =>
      let temp := s.total - s.frequencies.getD k 0
      if ¬ temp ≥ 0 then (.error .assertionError, s)
      else (.ok (), ⟨s.frequencies.set k freq, temp + freq, none⟩)

/-- The total is counted up before the list is indexed. -/
def increment (symbol : Int) (s : SimpleFrequencyTable) : Outcome Unit :=
  let s := { s with total := s.total + 1 }
  match index? s.frequencies.length symbol with
  | none => (.error .indexError, s)
  | some k =>
    (.ok (), { s with
      frequencies := s.frequencies.set k (s.frequencies.getD k 0 + 1), cumulative := none })

def getTotal (s : SimpleFrequencyTable) : Int := s.total

/-- The loop of `_init_cumulative`: `cumul` and `sum`. -/
def cumulLoop : List Int → List Int → Int → List Int × Int
  | [], cumul, sum => (cumul, sum)
  | freq :: freqs, cumul, sum => cumulLoop freqs (cumul ++ [sum + freq]) (sum + freq)

def initCumulative (s : SimpleFrequencyTable) : Outcome Unit :=
  let (cumul, sum) := cumulLoop s.frequencies [0] 0
  if sum ≠ s.total then (.error .assertionError, s)
  else (.ok (), { s with cumulative := some cumul })

/-- `get_low` and `get_high` differ in the index; both return `None` when they have to
initialize. -/
def query (i : Int) (s : SimpleFrequencyTable) : Outcome (Option Int) :=
  match s.cumulative with
  | none =>
    match s.initCumulative with
    | (.error e, s) => (.error e, s)
    | (.ok (), s) => (.ok none, s)
  | some cumulative =>
    match item? cumulative i with
    | none => (.error .indexError, s)
    | some sum => (.ok (some sum), s)

def getLow (symbol : Int) (s : SimpleFrequencyTable) : Outcome (Option Int) := s.query symbol

def getHigh (symbol : Int) (s : SimpleFrequencyTable) : Outcome (Option Int) := s.query (symbol + 1)

end SimpleFrequencyTable

open SimpleFrequencyTable

/-! ## Runs -/

inductive Call where
  | set (symbol freq : Int)
  | increment (symbol : Int)
  | getLow (symbol : Int)
  | getHigh (symbol : Int)
  deriving DecidableEq, Repr

namespace Call

/-- `set` and `increment` return `None`. -/
def run : Call → SimpleFrequencyTable → Outcome (Option Int)
  | .set symbol freq, s => ((s.set symbol freq).1.map fun _ => none, (s.set symbol freq).2)
  | .increment symbol, s => ((s.increment symbol).1.map fun _ => none, (s.increment symbol).2)
  | .getLow symbol, s => s.getLow symbol
  | .getHigh symbol, s => s.getHigh symbol

def symbol : Call → Int
  | .set symbol _ => symbol
  | .increment symbol => symbol
  | .getLow symbol => symbol
  | .getHigh symbol => symbol

def isQuery : Call → Bool
  | .getLow _ => true
  | .getHigh _ => true
  | _ => false

/-- The symbol is one of `n`. -/
def InRange (n : Nat) (c : Call) : Prop := 0 ≤ c.symbol ∧ c.symbol < n

/-- What a call asks for: on the frequencies alone, where it is in range. -/
def apply : Call → List Int → List Int
  | .set symbol freq, l => l.set symbol.toNat freq
  | .increment symbol, l => l.set symbol.toNat (l.getD symbol.toNat 0 + 1)
  | _, l => l

/-- The sum that a query is about. -/
def expected : Call → List Int → Int
  | .getLow symbol, l => (l.take symbol.toNat).sum
  | .getHigh symbol, l => (l.take (symbol.toNat + 1)).sum
  | _, _ => 0

end Call

/-- A table, whatever was raised. -/
def after (s : SimpleFrequencyTable) (calls : List Call) : SimpleFrequencyTable :=
  calls.foldl (fun s c => (c.run s).2) s

/-- The frequencies that the calls ask for. -/
def frequenciesAfter (freqs : List Int) (calls : List Call) : List Int :=
  calls.foldl (fun l c => c.apply l) freqs

theorem after_append (s : SimpleFrequencyTable) (calls : List Call) (c : Call) :
    after s (calls ++ [c]) = (c.run (after s calls)).2 := by
  rw [after, List.foldl_append]
  rfl

theorem frequenciesAfter_append (freqs : List Int) (calls : List Call) (c : Call) :
    frequenciesAfter freqs (calls ++ [c]) = c.apply (frequenciesAfter freqs calls) := by
  rw [frequenciesAfter, List.foldl_append]
  rfl

/-! ## Indices and sums -/

theorem index?_of_inRange {n : Nat} {i : Int} (h0 : 0 ≤ i) (hn : i < n) :
    index? n i = some i.toNat := if_pos ⟨h0, hn⟩

theorem index?_lt {n k : Nat} {i : Int} (h : index? n i = some k) : k < n := by
  unfold index? at h
  split at h
  · cases h
    omega
  · split at h
    · cases h
      omega
    · cases h

theorem index?_isSome_iff {n : Nat} {i : Int} : (index? n i).isSome ↔ -n ≤ i ∧ i < n := by
  unfold index?
  split
  · exact iff_of_true rfl (by omega)
  · split
    · exact iff_of_true rfl (by omega)
    · exact iff_of_false nofun (by omega)

/-- The prefix sums, from the empty one on. -/
def sums (l : List Int) : List Int := (List.range (l.length + 1)).map fun i => (l.take i).sum

theorem cumulLoop_eq (freqs cumul : List Int) (sum : Int) :
    cumulLoop freqs cumul sum =
      (cumul ++ (List.range freqs.length).map fun i => sum + (freqs.take (i + 1)).sum,
        sum + freqs.sum) := by
  induction freqs generalizing cumul sum with
  | nil => simp [cumulLoop]
  | cons freq freqs ih =>
    rw [cumulLoop, ih, List.length_cons, List.range_succ_eq_map, List.map_cons, List.map_map,
      List.append_assoc, List.sum_cons, ← add_assoc]
    refine congrArg₂ Prod.mk (congrArg (cumul ++ ·) ?_) rfl
    refine congrArg₂ List.cons (by simp) (List.map_congr_left fun i _ => ?_)
    simp [List.take_succ_cons, add_assoc]

/-- **The cumulative frequencies** are the prefix sums. -/
theorem cumulLoop_start (freqs : List Int) :
    cumulLoop freqs [0] 0 = (sums freqs, freqs.sum) := by
  rw [cumulLoop_eq, sums, List.range_succ_eq_map, List.map_cons, List.map_map]
  simp

theorem item?_sums {l : List Int} {i : Int} (h0 : 0 ≤ i) (hn : i ≤ l.length) :
    item? (sums l) i = some (l.take i.toNat).sum := by
  have hlen : (sums l).length = l.length + 1 := by rw [sums, List.length_map, List.length_range]
  rw [item?, hlen, index?_of_inRange h0 (by omega), Option.bind_some, sums, List.getElem?_map,
    List.getElem?_range (by omega)]
  rfl

theorem sum_set (l : List Int) {k : Nat} (hk : k < l.length) (a : Int) :
    (l.set k a).sum = l.sum - l.getD k 0 + a := by
  rw [List.sum_set', dif_pos hk, List.getD_eq_getElem?_getD, List.getElem?_eq_getElem hk,
    Option.getD_some]
  omega

/-- One of some frequencies is not more than all of them. -/
theorem getD_le_sum {l : List Int} (h0 : ∀ f ∈ l, 0 ≤ f) {k : Nat} (hk : k < l.length) :
    0 ≤ l.getD k 0 ∧ l.getD k 0 ≤ l.sum := by
  have hmem : l.getD k 0 ∈ l := by
    rw [List.getD_eq_getElem?_getD, List.getElem?_eq_getElem hk, Option.getD_some]
    exact List.getElem_mem hk
  exact ⟨h0 _ hmem, List.single_le_sum h0 _ hmem⟩

/-! ## One call, in any state -/

section

variable (s : SimpleFrequencyTable)

theorem set_cases (symbol freq : Int) :
    (∃ e, s.set symbol freq = (.error e, s) ∧
      (freq < 0 ∨ index? s.frequencies.length symbol = none ∨
        ∃ k, index? s.frequencies.length symbol = some k ∧ s.total - s.frequencies.getD k 0 < 0)) ∨
    ∃ k, 0 ≤ freq ∧ index? s.frequencies.length symbol = some k ∧
      0 ≤ s.total - s.frequencies.getD k 0 ∧ s.set symbol freq =
        (.ok (), ⟨s.frequencies.set k freq, s.total - s.frequencies.getD k 0 + freq, none⟩) := by
  unfold SimpleFrequencyTable.set
  by_cases hf : freq < 0
  · rw [if_pos hf]
    exact .inl ⟨_, rfl, .inl hf⟩
  · rw [if_neg hf]
    cases hk : index? s.frequencies.length symbol with
    | none => exact .inl ⟨_, rfl, .inr (.inl rfl)⟩
    | some k =>
      by_cases ht : s.total - s.frequencies.getD k 0 ≥ 0
      · exact .inr ⟨k, not_lt.mp hf, rfl, ht, if_neg (not_not.mpr ht)⟩
      · exact .inl ⟨.assertionError, if_pos ht, .inr (.inr ⟨k, rfl, not_le.mp ht⟩)⟩

theorem increment_cases (symbol : Int) :
    index? s.frequencies.length symbol = none ∧
        s.increment symbol = (.error .indexError, { s with total := s.total + 1 }) ∨
      ∃ k, index? s.frequencies.length symbol = some k ∧ s.increment symbol =
        (.ok (), ⟨s.frequencies.set k (s.frequencies.getD k 0 + 1), s.total + 1, none⟩) := by
  unfold SimpleFrequencyTable.increment
  cases hk : index? s.frequencies.length symbol with
  | none => exact .inl ⟨rfl, by dsimp only; rw [hk]⟩
  | some k => exact .inr ⟨k, rfl, by dsimp only; rw [hk]⟩

theorem initCumulative_cases :
    s.total ≠ s.frequencies.sum ∧ s.initCumulative = (.error .assertionError, s) ∨
      s.total = s.frequencies.sum ∧
        s.initCumulative = (.ok (), { s with cumulative := some (sums s.frequencies) }) := by
  unfold SimpleFrequencyTable.initCumulative
  rw [cumulLoop_start]
  by_cases h : s.total = s.frequencies.sum
  · exact .inr ⟨h, if_neg (not_not.mpr h.symm)⟩
  · exact .inl ⟨h, if_pos (Ne.symm h)⟩

/-- A query changes nothing but what is known of the sums. -/
theorem query_frequencies (i : Int) :
    (s.query i).2.frequencies = s.frequencies ∧ (s.query i).2.total = s.total := by
  unfold SimpleFrequencyTable.query
  cases s.cumulative with
  | none =>
    obtain ⟨-, h⟩ | ⟨-, h⟩ := initCumulative_cases s
    all_goals
      rw [h]
      exact ⟨rfl, rfl⟩
  | some cumulative =>
    dsimp only
    split <;> exact ⟨rfl, rfl⟩

variable {s}

/-- **The first query** initializes, and returns `None`. -/
theorem query_of_none (hc : s.cumulative = none) (ht : s.total = s.frequencies.sum) (i : Int) :
    s.query i = (.ok none, { s with cumulative := some (sums s.frequencies) }) := by
  obtain ⟨hne, -⟩ | ⟨-, hinit⟩ := initCumulative_cases s
  · exact absurd ht hne
  · unfold SimpleFrequencyTable.query
    rw [hc, hinit]

/-- **Another query** looks the sum up. -/
theorem query_of_sums (hc : s.cumulative = some (sums s.frequencies)) {i : Int} (h0 : 0 ≤ i)
    (hn : i ≤ s.frequencies.length) :
    s.query i = (.ok (some (s.frequencies.take i.toNat).sum), s) := by
  unfold SimpleFrequencyTable.query
  rw [hc]
  dsimp only
  rw [item?_sums h0 hn]

end

/-! ## Queries -/

/-- What is asked of a caller: symbols of the table, and no negative frequency. -/
def Call.Legal (n : Nat) (c : Call) : Prop :=
  c.InRange n ∧ ∀ symbol freq, c = .set symbol freq → 0 ≤ freq

/-- The last call was a query. -/
def Warm (calls : List Call) : Prop := ∃ p, calls.getLast? = some p ∧ p.isQuery

instance (calls : List Call) : Decidable (Warm calls) :=
  decidable_of_iff ((calls.getLast?.map Call.isQuery).getD false = true) (by
    unfold Warm
    cases calls.getLast? <;> simp)

theorem warm_append (calls : List Call) (c : Call) : Warm (calls ++ [c]) ↔ c.isQuery := by
  unfold Warm
  rw [List.getLast?_append, List.getLast?_singleton, Option.some_or]
  simp

/-- A table of some frequencies, whose sums are known or not. -/
def tableOf (l : List Int) (known : Bool) : SimpleFrequencyTable :=
  ⟨l, l.sum, if known then some (sums l) else none⟩

theorem init_eq {freqs : List Int} (hne : freqs ≠ []) (h0 : ∀ f ∈ freqs, 0 ≤ f) :
    SimpleFrequencyTable.init freqs = .ok (tableOf freqs false) := by
  have hlen := List.length_pos_of_ne_nil hne
  have hany : ¬ freqs.any (· < 0) := by
    simpa using h0
  rw [SimpleFrequencyTable.init, if_neg (by omega), if_neg hany]
  rfl

theorem query_tableOf (l : List Int) (known : Bool) {i : Int} (h0 : 0 ≤ i) (hn : i ≤ l.length) :
    (tableOf l known).query i =
      (.ok (if known then some (l.take i.toNat).sum else none), tableOf l true) := by
  cases known with
  | false => exact query_of_none rfl rfl i
  | true => exact query_of_sums rfl h0 hn

/-- The table of the reference coder. -/
def ofReference (t : Reference.FrequencyTable) (known : Bool) : SimpleFrequencyTable :=
  tableOf (t.frequencies.map Nat.cast) known

theorem take_map_cast_sum (l : List Nat) (n : Nat) :
    ((l.map Nat.cast).take n).sum = ((l.take n).sum : Int) := by
  rw [← List.map_take, Nat.cast_list_sum]

/-- **With its sums known**, a table answers as the reference coder takes it to. -/
theorem queries_ofReference (t : Reference.FrequencyTable) {symbol : Nat}
    (h : symbol < t.getSymbolLimit) :
    (ofReference t true).getLow symbol = (.ok (some (t.getLow symbol)), ofReference t true) ∧
      (ofReference t true).getHigh symbol = (.ok (some (t.getHigh symbol)), ofReference t true) ∧
      (ofReference t true).getTotal = t.getTotal := by
  have hlen : (t.frequencies.map (Nat.cast : Nat → Int)).length = t.getSymbolLimit :=
    List.length_map _
  refine ⟨?_, ?_, (Nat.cast_list_sum _).symm⟩
  · have hq := query_tableOf (t.frequencies.map Nat.cast) true (i := symbol) (by omega) (by omega)
    rw [Int.toNat_natCast, take_map_cast_sum] at hq
    exact hq
  · have hq := query_tableOf (t.frequencies.map Nat.cast) true (i := symbol + 1) (by omega)
      (by omega)
    rw [show ((symbol : Int) + 1).toNat = symbol + 1 by omega, take_map_cast_sum] at hq
    exact hq

theorem set_tableOf {l : List Int} (h0 : ∀ f ∈ l, 0 ≤ f) (known : Bool) {symbol freq : Int}
    {k : Nat} (hk : index? l.length symbol = some k) (hf : 0 ≤ freq) :
    (tableOf l known).set symbol freq = (.ok (), tableOf (l.set k freq) false) := by
  have hlt := index?_lt hk
  have hle := (getD_le_sum h0 hlt).2
  obtain ⟨e, -, hbad⟩ | ⟨k', -, hk', -, hset⟩ := set_cases (tableOf l known) symbol freq
  · obtain hneg | hnone | ⟨k', hk', hneg⟩ := hbad
    · omega
    · rw [show (tableOf l known).frequencies = l from rfl, hk] at hnone
      cases hnone
    · obtain rfl : k = k' := Option.some.inj (hk.symm.trans hk')
      change l.sum - l.getD k 0 < 0 at hneg
      omega
  · obtain rfl : k = k' := Option.some.inj (hk.symm.trans hk')
    have htable : tableOf (l.set k freq) false =
        ⟨l.set k freq, l.sum - l.getD k 0 + freq, none⟩ := by
      rw [tableOf, sum_set l hlt]
      rfl
    rw [hset, htable]
    rfl

theorem increment_tableOf (l : List Int) (known : Bool) {symbol : Int} {k : Nat}
    (hk : index? l.length symbol = some k) :
    (tableOf l known).increment symbol = (.ok (), tableOf (l.set k (l.getD k 0 + 1)) false) := by
  have hlt := index?_lt hk
  obtain ⟨hnone, -⟩ | ⟨k', hk', hinc⟩ := increment_cases (tableOf l known) symbol
  · rw [show (tableOf l known).frequencies = l from rfl, hk] at hnone
    cases hnone
  · obtain rfl : k = k' := Option.some.inj (hk.symm.trans hk')
    have hsum : l.sum - l.getD k 0 + (l.getD k 0 + 1) = l.sum + 1 := by omega
    have htable : tableOf (l.set k (l.getD k 0 + 1)) false =
        ⟨l.set k (l.getD k 0 + 1), l.sum + 1, none⟩ := by
      rw [tableOf, sum_set l hlt, hsum]
      rfl
    rw [hinc, htable]
    rfl

/-- **A legal call** does what it asks for. -/
theorem run_tableOf {l : List Int} (h0 : ∀ f ∈ l, 0 ≤ f) (known : Bool) {c : Call}
    (hc : c.Legal l.length) :
    (c.run (tableOf l known)).2 = tableOf (c.apply l) c.isQuery ∧
      (c.apply l).length = l.length ∧ (∀ f ∈ c.apply l, 0 ≤ f) ∧
      (c.isQuery →
        (c.run (tableOf l known)).1 = .ok (if known then some (c.expected l) else none)) := by
  obtain ⟨⟨hs0, hsn⟩, hfreq⟩ := hc
  cases c with
  | set symbol freq =>
    have hk : index? l.length symbol = some symbol.toNat := index?_of_inRange hs0 hsn
    have hf := hfreq symbol freq rfl
    refine ⟨?_, List.length_set, fun f hmem => ?_, nofun⟩
    · rw [Call.run, set_tableOf h0 known hk hf]
      rfl
    · obtain hmem | rfl := List.mem_or_eq_of_mem_set hmem
      · exact h0 f hmem
      · exact hf
  | increment symbol =>
    have hk : index? l.length symbol = some symbol.toNat := index?_of_inRange hs0 hsn
    refine ⟨?_, List.length_set, fun f hmem => ?_, nofun⟩
    · rw [Call.run, increment_tableOf l known hk]
      rfl
    · obtain hmem | rfl := List.mem_or_eq_of_mem_set hmem
      · exact h0 f hmem
      · have := (getD_le_sum h0 (index?_lt hk)).1
        change 0 ≤ l.getD symbol.toNat 0 + 1
        omega
  | getLow symbol =>
    have hq := query_tableOf l known (i := symbol) hs0 hsn.le
    refine ⟨congrArg Prod.snd hq, rfl, h0, fun _ => congrArg Prod.fst hq⟩
  | getHigh symbol =>
    have hs0' : 0 ≤ symbol := hs0
    have hsn' : symbol < l.length := hsn
    have hq := query_tableOf l known (i := symbol + 1) (by omega) (by omega)
    rw [show (symbol + 1).toNat = symbol.toNat + 1 by omega] at hq
    exact ⟨congrArg Prod.snd hq, rfl, h0, fun _ => congrArg Prod.fst hq⟩

/-- **Every run** of legal calls: the table is one of the frequencies asked for, and its sums are
known behind a query. -/
theorem after_tableOf {freqs : List Int} (h0 : ∀ f ∈ freqs, 0 ≤ f) {calls : List Call}
    (hc : ∀ c ∈ calls, c.Legal freqs.length) :
    after (tableOf freqs false) calls =
        tableOf (frequenciesAfter freqs calls) (decide (Warm calls)) ∧
      (frequenciesAfter freqs calls).length = freqs.length ∧
      ∀ f ∈ frequenciesAfter freqs calls, 0 ≤ f := by
  induction calls using List.reverseRecOn with
  | nil => exact ⟨rfl, rfl, h0⟩
  | append_singleton calls c ih =>
    obtain ⟨ht, hlen, hnn⟩ := ih fun c hmem => hc c (List.mem_append_left _ hmem)
    have hcl := hc c (List.mem_append_right _ List.mem_cons_self)
    rw [← hlen] at hcl
    obtain ⟨hrun, hlen', hnn', -⟩ := run_tableOf hnn (decide (Warm calls)) hcl
    rw [after_append, frequenciesAfter_append, ht, hrun]
    refine ⟨congrArg _ ?_, hlen'.trans hlen, hnn'⟩
    rw [Bool.eq_iff_iff, decide_eq_true_iff, warm_append]

/-- **Queries**: one gives the sum that it is about exactly if the call before it was a query; the
total is right always. -/
theorem query_right_iff {freqs : List Int} (hne : freqs ≠ []) (h0 : ∀ f ∈ freqs, 0 ≤ f)
    {calls : List Call} (hc : ∀ c ∈ calls, c.Legal freqs.length) {q : Call}
    (hq : q.Legal freqs.length) (hquery : q.isQuery) :
    ∃ s, SimpleFrequencyTable.init freqs = .ok s ∧
      ((q.run (after s calls)).1 = .ok (some (q.expected (frequenciesAfter freqs calls))) ↔
        ∃ p, calls.getLast? = some p ∧ p.isQuery) ∧
      (after s calls).getTotal =
        (Call.getHigh (freqs.length - 1)).expected (frequenciesAfter freqs calls) := by
  obtain ⟨ht, hlen, hnn⟩ := after_tableOf h0 hc
  rw [← hlen] at hq
  obtain ⟨-, -, -, hval⟩ := run_tableOf hnn (decide (Warm calls)) hq
  refine ⟨_, init_eq hne h0, ?_, ?_⟩
  · rw [ht, hval hquery]
    change _ ↔ Warm calls
    by_cases hw : Warm calls
    · rw [if_pos (decide_eq_true hw)]
      exact iff_of_true rfl hw
    · rw [if_neg (by rw [decide_eq_true_iff]; exact hw)]
      exact iff_of_false nofun hw
  · have hpos := List.length_pos_of_ne_nil hne
    have htake : ((freqs.length : Int) - 1).toNat + 1 = (frequenciesAfter freqs calls).length := by
      omega
    rw [ht, Call.expected, htake, List.take_length]
    rfl

theorem query_right_iff_example :
    ∃ s, SimpleFrequencyTable.init [1, 2, 3, 4] = .ok s ∧
      (((Call.getHigh 2).run (after s [.increment 0, .getLow 1])).1 =
          .ok (some ((Call.getHigh 2).expected
            (frequenciesAfter [1, 2, 3, 4] [.increment 0, .getLow 1]))) ↔
        ∃ p, [Call.increment 0, .getLow 1].getLast? = some p ∧ p.isQuery) ∧
      (after s [.increment 0, .getLow 1]).getTotal =
        (Call.getHigh (([1, 2, 3, 4] : List Int).length - 1)).expected
          (frequenciesAfter [1, 2, 3, 4] [.increment 0, .getLow 1]) :=
  query_right_iff (by decide) (by decide) (by
    intro c hmem
    rcases List.mem_cons.mp hmem with rfl | hmem
    · exact ⟨by unfold Call.InRange; decide, nofun⟩
    · obtain rfl := List.mem_singleton.mp hmem
      exact ⟨by unfold Call.InRange; decide, nofun⟩) ⟨by unfold Call.InRange; decide, nofun⟩ rfl

/-- **The first query** of a table, as `write` makes it. -/
theorem first_query_none :
    ∃ s, SimpleFrequencyTable.init [1, 2, 3, 4] = .ok s ∧ ((Call.getLow 1).run s).1 = .ok none ∧
      ((Call.getLow 1).run s).1 ≠ .ok (some ((Call.getLow 1).expected [1, 2, 3, 4])) :=
  ⟨_, rfl, by decide, by decide⟩

/-! ## Updates that fail -/

/-- An increment that raises. -/
def Call.fails (n : Nat) : Call → Bool
  | .increment symbol => (index? n symbol).isNone
  | _ => false

/-- Increments of the symbols of a table of `n`, and no setting of one from behind. -/
def Call.Accepted (n : Nat) : Call → Prop
  | .set symbol freq => freq < 0 ∨ ¬ (-n ≤ symbol ∧ symbol < 0)
  | .increment symbol => 0 ≤ symbol ∧ symbol < n
  | _ => True

/-- **Failed updates** change nothing, symbols outside the table are rejected, and the total is the
sum of the frequencies, all along a run. -/
structure Sound (s : SimpleFrequencyTable) (calls : List Call) : Prop where
  unchanged : ∀ pre c post e, calls = pre ++ c :: post → ¬ c.isQuery →
    (c.run (after s pre)).1 = .error e → (c.run (after s pre)).2 = after s pre
  rejects : ∀ pre c post, calls = pre ++ c :: post → ¬ c.isQuery →
    ¬ c.InRange s.frequencies.length → ∃ e, (c.run (after s pre)).1 = .error e
  total : ∀ pre post, calls = pre ++ post →
    (after s pre).total = (after s pre).frequencies.sum

/-- So many symbols, with no negative frequency among them. -/
structure WellFormed (n : Nat) (s : SimpleFrequencyTable) : Prop where
  length : s.frequencies.length = n
  nonneg : ∀ f ∈ s.frequencies, 0 ≤ f

/-- **Any call**: the frequencies stay such, and the total moves away from their sum with an
increment that fails. -/
theorem run_wellFormed {n : Nat} {s : SimpleFrequencyTable} (h : WellFormed n s) (c : Call) :
    WellFormed n (c.run s).2 ∧
      (c.run s).2.total - (c.run s).2.frequencies.sum =
        s.total - s.frequencies.sum + if c.fails n then 1 else 0 := by
  obtain ⟨hlen, hnn⟩ := h
  have hquery : ∀ i, WellFormed n (s.query i).2 ∧
      (s.query i).2.total - (s.query i).2.frequencies.sum =
        s.total - s.frequencies.sum + 0 := by
    intro i
    obtain ⟨hf, ht⟩ := query_frequencies s i
    exact ⟨⟨by rw [hf, hlen], by rwa [hf]⟩, by rw [hf, ht, add_zero]⟩
  cases c with
  | set symbol freq =>
    obtain ⟨e, hset, -⟩ | ⟨k, hfreq, hk, -, hset⟩ := set_cases s symbol freq
    · rw [Call.run, hset]
      exact ⟨⟨hlen, hnn⟩, (add_zero _).symm⟩
    · rw [Call.run, hset]
      refine ⟨⟨List.length_set.trans hlen, fun f hmem => ?_⟩, ?_⟩
      · obtain hmem | rfl := List.mem_or_eq_of_mem_set hmem
        · exact hnn f hmem
        · exact hfreq
      · have hsum := sum_set s.frequencies (index?_lt hk) freq
        change s.total - s.frequencies.getD k 0 + freq - (s.frequencies.set k freq).sum = _ + 0
        omega
  | increment symbol =>
    obtain ⟨hk, hinc⟩ | ⟨k, hk, hinc⟩ := increment_cases s symbol
    · rw [Call.run, hinc]
      rw [hlen] at hk
      refine ⟨⟨hlen, hnn⟩, ?_⟩
      rw [Call.fails, hk]
      change s.total + 1 - s.frequencies.sum = s.total - s.frequencies.sum + 1
      omega
    · rw [Call.run, hinc]
      refine ⟨⟨List.length_set.trans hlen, fun f hmem => ?_⟩, ?_⟩
      · obtain hmem | rfl := List.mem_or_eq_of_mem_set hmem
        · exact hnn f hmem
        · have := (getD_le_sum hnn (index?_lt hk)).1
          omega
      · have hsum := sum_set s.frequencies (index?_lt hk) (s.frequencies.getD k 0 + 1)
        rw [hlen] at hk
        rw [Call.fails, hk]
        change s.total + 1 - (s.frequencies.set k (s.frequencies.getD k 0 + 1)).sum = _ + 0
        omega
  | getLow symbol => exact hquery symbol
  | getHigh symbol => exact hquery (symbol + 1)

/-- **Any run**: the total is the sum of the frequencies, and one more for each increment that
failed. -/
theorem after_wellFormed {n : Nat} {s : SimpleFrequencyTable} (h : WellFormed n s)
    (hs : s.total = s.frequencies.sum) (calls : List Call) :
    WellFormed n (after s calls) ∧
      (after s calls).total =
        (after s calls).frequencies.sum + calls.countP (Call.fails n) := by
  induction calls using List.reverseRecOn with
  | nil => exact ⟨h, hs.trans (add_zero _).symm⟩
  | append_singleton calls c ih =>
    obtain ⟨hf, ht⟩ := ih
    obtain ⟨hf', ht'⟩ := run_wellFormed hf c
    rw [after_append]
    refine ⟨hf', ?_⟩
    rw [List.countP_append, List.countP_singleton]
    by_cases hc : c.fails n
    · rw [if_pos hc] at ht' ⊢
      omega
    · rw [if_neg hc] at ht' ⊢
      omega

theorem not_inRange {n : Nat} {c : Call} (h : ¬ c.InRange n)
    (hi : ¬ (-n ≤ c.symbol ∧ c.symbol < 0)) :
    index? n c.symbol = none := by
  unfold Call.InRange at h
  rw [index?, if_neg h, if_neg hi]

/-- A run that is sound makes accepted calls only. -/
theorem accepted_of_sound {n : Nat} {s : SimpleFrequencyTable} (h : WellFormed n s)
    (hs : s.total = s.frequencies.sum) {calls : List Call} (hsound : Sound s calls) {c : Call}
    (hc : c ∈ calls) : c.Accepted n := by
  obtain ⟨pre, post, hcalls⟩ := List.append_of_mem hc
  obtain ⟨⟨hlen, hnn⟩, -⟩ := after_wellFormed h hs pre
  have htotal := hsound.total pre (c :: post) hcalls
  have hrejects := hsound.rejects pre c post hcalls
  rw [h.length] at hrejects
  cases c with
  | set symbol freq =>
    by_contra hbad
    obtain ⟨hfreq, hneg⟩ := not_or.mp hbad
    have hneg := not_not.mp hneg
    obtain ⟨e, he⟩ := hrejects nofun fun hin => absurd hin.1 (not_le.mpr hneg.2)
    obtain ⟨-, -, hwhy⟩ | ⟨_, -, -, -, hset⟩ := set_cases (after s pre) symbol freq
    · obtain hf | hnone | ⟨k, hk, hlow⟩ := hwhy
      · exact hfreq hf
      · have hsome : (index? (after s pre).frequencies.length symbol).isSome :=
          index?_isSome_iff.mpr ⟨by omega, by omega⟩
        rw [hnone] at hsome
        cases hsome
      · have := (getD_le_sum hnn (index?_lt hk)).2
        omega
    · rw [Call.run, hset] at he
      cases he
  | increment symbol =>
    by_contra hbad
    obtain ⟨hk, hinc⟩ | ⟨k, -, hinc⟩ := increment_cases (after s pre) symbol
    · -- it raises, with a total that has moved
      have hrun : (Call.increment symbol).run (after s pre) =
          (.error .indexError, { after s pre with total := (after s pre).total + 1 }) := by
        rw [Call.run, hinc]
        rfl
      have heq := hsound.unchanged pre _ post .indexError hcalls nofun (congrArg Prod.fst hrun)
      rw [hrun] at heq
      have := congrArg SimpleFrequencyTable.total heq
      change (after s pre).total + 1 = _ at this
      omega
    · obtain ⟨e, he⟩ := hrejects nofun hbad
      rw [Call.run, hinc] at he
      cases he
  | getLow symbol => trivial
  | getHigh symbol => trivial

theorem not_fails_of_accepted {n : Nat} {c : Call} (h : c.Accepted n) : ¬ c.fails n := by
  cases c with
  | increment symbol =>
    rw [Call.fails, index?_of_inRange h.1 h.2]
    nofun
  | set symbol freq => nofun
  | getLow symbol => nofun
  | getHigh symbol => nofun

theorem sound_of_accepted {n : Nat} {s : SimpleFrequencyTable} (h : WellFormed n s)
    (hs : s.total = s.frequencies.sum) {calls : List Call} (hall : ∀ c ∈ calls, c.Accepted n) :
    Sound s calls := by
  have hacc : ∀ {pre c post}, calls = pre ++ c :: post → c.Accepted n := fun {pre c post} he =>
    hall c (by rw [he]; exact List.mem_append_right _ List.mem_cons_self)
  refine ⟨fun pre c post e hcalls hq he => ?_, fun pre c post hcalls hq hout => ?_,
    fun pre post hcalls => ?_⟩
  · have hc := hacc hcalls
    obtain ⟨⟨hlen, -⟩, -⟩ := after_wellFormed h hs pre
    cases c with
    | set symbol freq =>
      obtain ⟨e, hset, -⟩ | ⟨_, -, -, -, hset⟩ := set_cases (after s pre) symbol freq
      · rw [Call.run, hset]
      · rw [Call.run, hset] at he
        cases he
    | increment symbol =>
      obtain ⟨hk, -⟩ | ⟨_, -, hinc⟩ := increment_cases (after s pre) symbol
      · rw [hlen, index?_of_inRange hc.1 hc.2] at hk
        cases hk
      · rw [Call.run, hinc] at he
        cases he
    | getLow symbol => exact absurd rfl hq
    | getHigh symbol => exact absurd rfl hq
  · have hc := hacc hcalls
    obtain ⟨⟨hlen, -⟩, -⟩ := after_wellFormed h hs pre
    rw [h.length] at hout
    cases c with
    | set symbol freq =>
      obtain ⟨e, hset, -⟩ | ⟨k, hfreq, hk, -, -⟩ := set_cases (after s pre) symbol freq
      · exact ⟨e, by rw [Call.run, hset]; rfl⟩
      · obtain hneg | hneg := hc
        · omega
        · have hnone : index? n symbol = none := not_inRange hout hneg
          rw [hlen, hnone] at hk
          cases hk
    | increment symbol => exact absurd hc hout
    | getLow symbol => exact absurd rfl hq
    | getHigh symbol => exact absurd rfl hq
  · have hz : pre.countP (Call.fails n) = 0 := List.countP_eq_zero.mpr fun c hmem =>
      not_fails_of_accepted (hall c (by rw [hcalls]; exact List.mem_append_left _ hmem))
    have := (after_wellFormed h hs pre).2
    omega

/-- **Failed updates** change nothing in exactly the runs of accepted calls. -/
theorem updates_sound_iff {freqs : List Int} (hne : freqs ≠ []) (h0 : ∀ f ∈ freqs, 0 ≤ f)
    (calls : List Call) :
    ∃ s, SimpleFrequencyTable.init freqs = .ok s ∧
      (Sound s calls ↔ ∀ c ∈ calls, c.Accepted freqs.length) := by
  have hwf : WellFormed freqs.length (tableOf freqs false) := ⟨rfl, h0⟩
  exact ⟨_, init_eq hne h0, fun h c hc => accepted_of_sound hwf rfl h hc,
    fun h => sound_of_accepted hwf rfl h⟩

theorem updates_sound_iff_example :
    ∃ s, SimpleFrequencyTable.init [1, 2] = .ok s ∧
      (Sound s [.set 5 3, .getLow 7, .increment 1] ↔
        ∀ c ∈ [Call.set 5 3, .getLow 7, .increment 1], c.Accepted 2) :=
  updates_sound_iff (by decide) (by decide) _

/-- **An increment** behind the end raises and is counted; one of the symbol -1 is not refused. -/
theorem increment_unsound :
    ∃ s, SimpleFrequencyTable.init [1, 2] = .ok s ∧
      ((Call.increment 2).run s).1 = .error .indexError ∧ ((Call.increment 2).run s).2.total = 4 ∧
      ((Call.getLow 0).run (after s [.increment 2])).1 = .error .assertionError ∧
      ((Call.increment (-1)).run s).1 = .ok none ∧
      ¬ Sound s [.increment 2] ∧ ¬ Sound s [.increment (-1)] ∧ ¬ Sound s [.set (-1) 0] := by
  have hwf : WellFormed 2 (tableOf [1, 2] false) := ⟨rfl, by decide⟩
  refine ⟨tableOf [1, 2] false, rfl, by decide, by decide, by decide, by decide, fun h => ?_,
    fun h => ?_, fun h => ?_⟩
  · exact absurd (accepted_of_sound hwf rfl h List.mem_cons_self).2 (by decide)
  · exact absurd (accepted_of_sound hwf rfl h List.mem_cons_self).1 (by decide)
  · exact (accepted_of_sound hwf rfl h List.mem_cons_self).elim (by decide) (by decide)

end DeepSpace.Frequencies
