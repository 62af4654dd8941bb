import DeepSpace.AdaptiveCoding
import DeepSpace.FrequencyTable
import Mathlib.Tactic.IntervalCases

/-!
# The coder on table objects

The coder calls the methods of a table, which may raise, return `None` and change the object.

* `Represents`: an object that answers as a table of the reference coder, and stays as it is;
* `flat_represents`, `simple_represents`, `checked_represents`: the three classes;
* `objects_roundTrip`: over such an object the coder is the one over the table;
* `cold_loses_first`: over a `SimpleFrequencyTable` that nobody has asked before, the first symbol
  is lost, and so is each of `write_binary` in `main.py`.
-/

namespace DeepSpace.TableObject

open DeepSpace.Reference
open DeepSpace.ArithmeticCoding (Result Coder Virtual MAX_TOTAL renormalise)

/-! ## Methods -/

inductive PythonError where
  | valueError (message : String)
  | indexError
  | assertionError (message : String)
  | typeError
  | zeroDivisionError
  | notImplementedError
  deriving DecidableEq, Repr

/-- What a method returns or raises, and the object behind it. -/
abbrev Outcome (σ α : Type) := Except PythonError α × σ

def Outcome.andThen {σ α β : Type} (o : Outcome σ α) (f : α → σ → Outcome σ β) : Outcome σ β :=
  match o with
  | (.ok a, s) => f a s
  | (.error e, s) => (.error e, s)

@[simp] theorem andThen_ok {σ α β : Type} (a : α) (s : σ) (f : α → σ → Outcome σ β) :
    Outcome.andThen (.ok a, s) f = f a s := rfl

/-- `FrequencyTable`: the methods of a class whose objects are the `σ`; `none` is `None`. -/
structure Methods (σ : Type) where
  getSymbolLimit : σ → Outcome σ Int
  get : Int → σ → Outcome σ Int
  set : Int → Int → σ → Outcome σ Unit
  increment : Int → σ → Outcome σ Unit
  getTotal : σ → Outcome σ Int
  getLow : Int → σ → Outcome σ (Option Int)
  getHigh : Int → σ → Outcome σ (Option Int)

/-! ## `FlatFrequencyTable` -/

structure FlatFrequencyTable where
  numsymbols : Int
  deriving DecidableEq, Repr

namespace FlatFrequencyTable

def init (numsyms : Int) : Except PythonError FlatFrequencyTable :=
  if numsyms < 1 then .error (.valueError "Number of symbols must be positive") else .ok ⟨numsyms⟩

def checkSymbol (symbol : Int) (s : FlatFrequencyTable) : Outcome FlatFrequencyTable Unit :=
  if 0 ≤ symbol ∧ symbol < s.numsymbols then (.ok (), s)
  else (.error (.valueError "Symbol out of range"), s)

def methods : Methods FlatFrequencyTable where
  getSymbolLimit s := (.ok s.numsymbols, s)
  get symbol s := (s.checkSymbol symbol).andThen fun _ s => (.ok 1, s)
  set _ _ s := (.error .notImplementedError, s)
  increment _ s := (.error .notImplementedError, s)
  getTotal s := (.ok s.numsymbols, s)
  getLow symbol s := (s.checkSymbol symbol).andThen fun _ s => (.ok (some symbol), s)
  getHigh symbol s := (s.checkSymbol symbol).andThen fun _ s => (.ok (some (symbol + 1)), s)

end FlatFrequencyTable

/-! ## `SimpleFrequencyTable` -/

/-- The exceptions of `SimpleFrequencyTable`; its assertions have no message. -/
def ofRaised : Frequencies.Raised → PythonError
  | .valueError message => .valueError message
  | .indexError => .indexError
  | .assertionError => .assertionError ""

def ofOutcome {α : Type} (o : Frequencies.Outcome α) :
    Outcome Frequencies.SimpleFrequencyTable α := (o.1.mapError ofRaised, o.2)

namespace SimpleFrequencyTable

def get (symbol : Int) (s : Frequencies.SimpleFrequencyTable) :
    Outcome Frequencies.SimpleFrequencyTable Int :=
  match Frequencies.item? s.frequencies symbol with
  | none => (.error .indexError, s)
  | some freq => (.ok freq, s)

def methods : Methods Frequencies.SimpleFrequencyTable where
  getSymbolLimit s := (.ok s.frequencies.length, s)
  get := get
  set symbol freq s := ofOutcome (s.set symbol freq)
  increment symbol s := ofOutcome (s.increment symbol)
  getTotal s := (.ok s.getTotal, s)
  getLow symbol s := ofOutcome (s.getLow symbol)
  getHigh symbol s := ofOutcome (s.getHigh symbol)

/-- `[freqs.get(i) for i in range(numsym)]`, from `i` on. -/
def copyLoop {σ : Type} (m : Methods σ) : Nat → Int → List Int → σ → Outcome σ (List Int)
  | 0, _, frequencies, s => (.ok frequencies, s)
  | n + 1, i, frequencies, s =>
    (m.get i s).andThen fun freq s => copyLoop m n (i + 1) (frequencies ++ [freq]) s

/-- `__init__` of another table. -/
def copy {σ : Type} (m : Methods σ) (s : σ) : Outcome σ Frequencies.SimpleFrequencyTable :=
  (m.getSymbolLimit s).andThen fun numsym s =>
    (copyLoop m numsym.toNat 0 [] s).andThen fun frequencies s =>
      ((Frequencies.SimpleFrequencyTable.init frequencies).mapError ofRaised, s)

end SimpleFrequencyTable

/-! ## `CheckedFrequencyTable` -/

namespace CheckedFrequencyTable

variable {σ : Type} (m : Methods σ)

def getSymbolLimit (s : σ) : Outcome σ Int :=
  (m.getSymbolLimit s).andThen fun result s =>
    if result ≤ 0 then (.error (.assertionError "Non-positive symbol limit"), s)
    else (.ok result, s)

def isSymbolInRange (symbol : Int) (s : σ) : Outcome σ Bool :=
  if 0 ≤ symbol then
    (getSymbolLimit m s).andThen fun limit s => (.ok (decide (symbol < limit)), s)
  else (.ok false, s)

def get (symbol : Int) (s : σ) : Outcome σ Int :=
  (m.get symbol s).andThen fun result s =>
    (isSymbolInRange m symbol s).andThen fun inRange s =>
      if ¬ inRange then (.error (.assertionError "ValueError expected"), s)
      else if result < 0 then (.error (.assertionError "Negative symbol frequency"), s)
      else (.ok result, s)

def getTotal (s : σ) : Outcome σ Int :=
  (m.getTotal s).andThen fun result s =>
    if result < 0 then (.error (.assertionError "Negative total frequency"), s) else (.ok result, s)

/-- `0 <= low <= high <= self.freqtable.get_total()`, as far as it is evaluated. -/
def ordered (low high : Option Int) (s : σ) : Outcome σ Bool :=
  match low with
  | none => (.error .typeError, s)
  | some low =>
    if 0 ≤ low then
      match high with
      | none => (.error .typeError, s)
      | some high =>
        if low ≤ high then
          (m.getTotal s).andThen fun total s => (.ok (decide (high ≤ total)), s)
        else (.ok false, s)
    else (.ok false, s)

/-- The common part of `get_low` and `get_high`: both sums, checked. -/
def bothSums (message : String) (symbol : Int) (s : σ) : Outcome σ (Option Int × Option Int) :=
  (m.getLow symbol s).andThen fun low s =>
    (m.getHigh symbol s).andThen fun high s =>
      (ordered m low high s).andThen fun ok s =>
        if ¬ ok then (.error (.assertionError message), s) else (.ok (low, high), s)

def getLow (symbol : Int) (s : σ) : Outcome σ (Option Int) :=
  (isSymbolInRange m symbol s).andThen fun inRange s =>
    if inRange then
      (bothSums m "Symbol low cumulative frequency out of range" symbol s).andThen
        fun sums s => (.ok sums.1, s)
    else
      (m.getLow symbol s).andThen fun _ s => (.error (.assertionError "ValueError expected"), s)

def getHigh (symbol : Int) (s : σ) : Outcome σ (Option Int) :=
  (isSymbolInRange m symbol s).andThen fun inRange s =>
    if inRange then
      (bothSums m "Symbol high cumulative frequency out of range" symbol s).andThen
        fun sums s => (.ok sums.2, s)
    else
      (m.getHigh symbol s).andThen fun _ s => (.error (.assertionError "ValueError expected"), s)

def set (symbol freq : Int) (s : σ) : Outcome σ Unit :=
  (m.set symbol freq s).andThen fun _ s =>
    (isSymbolInRange m symbol s).andThen fun inRange s =>
      if ¬ inRange ∨ freq < 0 then (.error (.assertionError "ValueError expected"), s)
      else (.ok (), s)

def increment (symbol : Int) (s : σ) : Outcome σ Unit :=
  (m.increment symbol s).andThen fun _ s =>
    (isSymbolInRange m symbol s).andThen fun inRange s =>
      if ¬ inRange then (.error (.assertionError "ValueError expected"), s) else (.ok (), s)

/-- The wrapper has no other state than the table in it. -/
def methods : Methods σ where
  getSymbolLimit := getSymbolLimit m
  get := get m
  set := set m
  increment := increment m
  getTotal := getTotal m
  getLow := getLow m
  getHigh := getHigh m

end CheckedFrequencyTable

/-! ## The coder -/

section

variable {σ δ : Type} (m : Methods σ)

/-- What `update` computes from the answers, up to the two assignments. -/
def bounds (c : Coder δ) (total : Int) (symlow symhigh : Option Int) :
    Except PythonError (Int × Int) :=
  match symlow with
  | none => .error .typeError
  | some symlow =>
    if total = 0 then .error .zeroDivisionError
    else
      match symhigh with
      | none => .error .typeError
      | some symhigh =>
        .ok (c.low + (symlow * range c).fdiv total, c.low + (symhigh * range c).fdiv total - 1)

/-- `update`, up to the two assignments. -/
def ends (symbol : Int) (s : σ) (c : Coder δ) : Outcome σ (Int × Int) :=
  (m.getTotal s).andThen fun total s =>
    (m.getLow symbol s).andThen fun symlow s =>
      (m.getHigh symbol s).andThen fun symhigh s =>
        if total > MAX_TOTAL then
          (.error (.valueError "Cannot code symbol because total is too large"), s)
        else (bounds c total symlow symhigh, s)

/-- `update`, and the coder behind it, also where it raises. -/
def update (v : Virtual δ) (symbol : Int) (s : σ) (c : Coder δ) :
    Outcome σ Unit × Result (Coder δ) :=
  match ends m symbol s c with
  | (.error e, s) => ((.error e, s), .ok c)
  | (.ok (newlow, newhigh), s) =>
    ((.ok (), s), renormalise v { c with low := newlow, high := newhigh })

def write (symbol : Int) (s : σ) (p : ArithmeticEncoder) :
    Outcome σ Unit × Result ArithmeticEncoder :=
  update m ArithmeticEncoder.virtual symbol s p

/-- The search of `read`; `None > value` raises. -/
def search (value : Int) : Nat → Int → Int → σ → Outcome σ Int
  | 0, start, _, s => (.ok start, s)
  | n + 1, start, stop, s =>
    if stop - start > 1 then
      let middle := (start + stop) >>> (1 : Nat)
      (m.getLow middle s).andThen fun low s =>
        match low with
        | none => (.error .typeError, s)
        | some low =>
          if low > value then search value n start middle s else search value n middle stop s
    else (.ok start, s)

/-- `read`, up to the call of `update`. -/
def find (s : σ) (d : ArithmeticDecoder) : Outcome σ Int :=
  (m.getTotal s).andThen fun total s =>
    if total > MAX_TOTAL then
      (.error (.valueError "Cannot decode symbol because total is too large"), s)
    else if range d = 0 then (.error .zeroDivisionError, s)
    else
      let value := ((d.sub.code - d.low + 1) * total - 1).fdiv (range d)
      (m.getSymbolLimit s).andThen fun limit s => search m value limit.toNat 0 limit s

/-- The symbol that `read` returns, and the decoder behind it. -/
def read (s : σ) (d : ArithmeticDecoder) : Outcome σ Int × Result ArithmeticDecoder :=
  match find m s d with
  | (.error e, s) => ((.error e, s), .ok d)
  | (.ok symbol, s) =>
    let r := update m ArithmeticDecoder.virtual symbol s d
    (r.1.andThen fun _ s => (.ok symbol, s), r.2)

/-- One `write` after the other. -/
def writes : List Int → σ → ArithmeticEncoder → Outcome σ Unit × Result ArithmeticEncoder
  | [], s, p => ((.ok (), s), .ok p)
  | symbol :: symbols, s, p =>
    match write m symbol s p with
    | ((.ok (), s), .ok p) => writes symbols s p
    | r => r

/-- A fresh encoder, the symbols, `finish` and `close`. -/
def encode (symbols : List Int) (s : σ) : Outcome σ Unit × Result ArithmeticEncoder :=
  match writes m symbols s .fresh with
  | ((.ok (), s), result) =>
    ((.ok (), s), (result.andThen ArithmeticEncoder.finish).andThen ArithmeticEncoder.close)
  | r => r

/-- `n` times `read`, as far as nothing is raised. -/
def reads : Nat → σ → ArithmeticDecoder → List Int × σ
  | 0, s, _ => ([], s)
  | n + 1, s, d =>
    match read m s d with
    | ((.ok symbol, s), .ok d) => (symbol :: (reads n s d).1, (reads n s d).2)
    | r => ([], r.1.2)

end

/-! ## Objects that stand for a table -/

/-- The object answers as the table does, and is not changed by that. -/
structure Represents {σ : Type} (m : Methods σ) (s : σ) (t : FrequencyTable) : Prop where
  limit : m.getSymbolLimit s = (.ok t.getSymbolLimit, s)
  total : m.getTotal s = (.ok t.getTotal, s)
  get : ∀ symbol : Nat, symbol < t.getSymbolLimit →
    m.get symbol s = (.ok (t.frequencies.getD symbol 0 : Nat), s)
  low : ∀ symbol : Nat, symbol < t.getSymbolLimit →
    m.getLow symbol s = (.ok (some (t.getLow symbol)), s)
  high : ∀ symbol : Nat, symbol < t.getSymbolLimit →
    m.getHigh symbol s = (.ok (some (t.getHigh symbol)), s)

theorem sum_take_replicate (n k : Nat) (h : k ≤ n) :
    ((List.replicate n 1).take k).sum = k := by
  rw [List.take_replicate, Nat.min_eq_left h, List.sum_replicate_nat, Nat.mul_one]

/-- **A flat table.** -/
theorem flat_represents (n : Nat) :
    Represents FlatFrequencyTable.methods ⟨n⟩ ⟨List.replicate n 1⟩ := by
  have hlimit : (⟨List.replicate n 1⟩ : FrequencyTable).getSymbolLimit = n := List.length_replicate
  have hcheck : ∀ symbol : Nat, symbol < n →
      FlatFrequencyTable.checkSymbol symbol ⟨n⟩ = (.ok (), ⟨n⟩) := fun symbol h =>
    if_pos ⟨Int.natCast_nonneg _, Int.ofNat_lt.mpr h⟩
  refine ⟨?_, ?_, fun symbol h => ?_, fun symbol h => ?_, fun symbol h => ?_⟩
  · rw [hlimit]
    rfl
  · rw [FrequencyTable.getTotal, List.sum_replicate_nat, Nat.mul_one]
    rfl
  · rw [hlimit] at h
    simp only [FlatFrequencyTable.methods, hcheck symbol h, andThen_ok]
    rw [List.getD_eq_getElem?_getD, List.getElem?_replicate, if_pos h]
    rfl
  · rw [hlimit] at h
    simp only [FlatFrequencyTable.methods, hcheck symbol h, andThen_ok]
    rw [FrequencyTable.getLow, sum_take_replicate n symbol h.le]
  · rw [hlimit] at h
    simp only [FlatFrequencyTable.methods, hcheck symbol h, andThen_ok]
    rw [FrequencyTable.getHigh, sum_take_replicate n (symbol + 1) h, Nat.cast_succ]

/-- **A simple table** whose sums are known. -/
theorem simple_represents (t : FrequencyTable) :
    Represents SimpleFrequencyTable.methods (Frequencies.ofReference t true) t := by
  have hfreqs : (Frequencies.ofReference t true).frequencies = t.frequencies.map Nat.cast := rfl
  refine ⟨?_, ?_, fun symbol h => ?_, fun symbol h => ?_, fun symbol h => ?_⟩
  · change (Except.ok ((Frequencies.ofReference t true).frequencies.length : Int), _) = _
    rw [hfreqs, List.length_map]
    rfl
  · change (Except.ok (t.frequencies.map Nat.cast).sum, _) = _
    rw [FrequencyTable.getTotal, Nat.cast_list_sum]
  · have hitem : Frequencies.item? (Frequencies.ofReference t true).frequencies symbol =
        some ((t.frequencies.getD symbol 0 : Nat) : Int) := by
      have hlt : (symbol : Int) < (t.frequencies.map (Nat.cast : Nat → Int)).length := by
        rw [List.length_map]
        exact Int.ofNat_lt.mpr h
      rw [hfreqs, Frequencies.item?, Frequencies.index?_of_inRange (Int.natCast_nonneg _) hlt,
        Option.bind_some, Int.toNat_natCast, List.getElem?_map, List.getD_eq_getElem?_getD,
        List.getElem?_eq_getElem h]
      rfl
    change SimpleFrequencyTable.get symbol _ = _
    rw [SimpleFrequencyTable.get, hitem]
  · change ofOutcome ((Frequencies.ofReference t true).getLow symbol) = _
    rw [(Frequencies.queries_ofReference t h).1]
    rfl
  · change ofOutcome ((Frequencies.ofReference t true).getHigh symbol) = _
    rw [(Frequencies.queries_ofReference t h).2.1]
    rfl

/-- **The wrapper** finds no fault in such an object. -/
theorem checked_represents {σ : Type} {m : Methods σ} {s : σ} {t : FrequencyTable}
    (h : Represents m s t) (hne : 0 < t.getSymbolLimit) :
    Represents (CheckedFrequencyTable.methods m) s t := by
  have hlimit : CheckedFrequencyTable.getSymbolLimit m s = (.ok (t.getSymbolLimit : Int), s) := by
    rw [CheckedFrequencyTable.getSymbolLimit, h.limit, andThen_ok, if_neg (by omega)]
  have hrange : ∀ symbol : Nat, symbol < t.getSymbolLimit →
      CheckedFrequencyTable.isSymbolInRange m symbol s = (.ok true, s) := fun symbol hlt => by
    rw [CheckedFrequencyTable.isSymbolInRange, if_pos (Int.natCast_nonneg _), hlimit, andThen_ok,
      decide_eq_true (Int.ofNat_lt.mpr hlt)]
  have hsums : ∀ (message : String) (symbol : Nat), symbol < t.getSymbolLimit →
      CheckedFrequencyTable.bothSums m message symbol s =
        (.ok (some (t.getLow symbol), some (t.getHigh symbol)), s) := fun message symbol hlt => by
    have hlow : 0 ≤ t.getLow symbol := Int.natCast_nonneg _
    have hle : t.getLow symbol ≤ t.getHigh symbol := getLow_mono t (Nat.le_succ symbol)
    have hhigh : t.getHigh symbol ≤ t.getTotal := Int.ofNat_le.mpr (sum_take_le _ _)
    simp only [CheckedFrequencyTable.bothSums, CheckedFrequencyTable.ordered, h.low symbol hlt,
      h.high symbol hlt, h.total, andThen_ok, if_pos hlow, if_pos hle, decide_eq_true hhigh,
      not_true_eq_false, if_false]
  refine ⟨hlimit, ?_, fun symbol hlt => ?_, fun symbol hlt => ?_, fun symbol hlt => ?_⟩
  · change CheckedFrequencyTable.getTotal m s = _
    have hpos : 0 ≤ t.getTotal := Int.natCast_nonneg _
    rw [CheckedFrequencyTable.getTotal, h.total, andThen_ok, if_neg (not_lt.mpr hpos)]
  · change CheckedFrequencyTable.get m symbol s = _
    rw [CheckedFrequencyTable.get, h.get symbol hlt, andThen_ok, hrange symbol hlt, andThen_ok,
      if_neg (by decide), if_neg (not_lt.mpr (Int.natCast_nonneg _))]
  · change CheckedFrequencyTable.getLow m symbol s = _
    rw [CheckedFrequencyTable.getLow, hrange symbol hlt, andThen_ok, if_pos rfl,
      hsums _ symbol hlt, andThen_ok]
  · change CheckedFrequencyTable.getHigh m symbol s = _
    rw [CheckedFrequencyTable.getHigh, hrange symbol hlt, andThen_ok, if_pos rfl,
      hsums _ symbol hlt, andThen_ok]

/-- **A copy** of such an object is a simple table with the frequencies of the table. -/
theorem copy_eq {σ : Type} {m : Methods σ} {s : σ} {t : FrequencyTable} (h : Represents m s t)
    (hne : t.frequencies ≠ []) :
    SimpleFrequencyTable.copy m s = (.ok (Frequencies.ofReference t false), s) := by
  have hloop : ∀ n i (acc : List Int), n + i = t.getSymbolLimit →
      SimpleFrequencyTable.copyLoop m n (i : Nat) acc s =
        (.ok (acc ++ (t.frequencies.drop i).map Nat.cast), s) := by
    intro n
    induction n with
    | zero =>
      intro i acc hi
      have hend : t.frequencies.length ≤ i := (hi.symm.trans (Nat.zero_add i)).le
      rw [SimpleFrequencyTable.copyLoop, List.drop_eq_nil_of_le hend, List.map_nil,
        List.append_nil]
    | succ n ih =>
      intro i acc hi
      have hlt : i < t.frequencies.length := by
        have : t.getSymbolLimit = t.frequencies.length := rfl
        omega
      rw [SimpleFrequencyTable.copyLoop, h.get i hlt, andThen_ok, ← Nat.cast_succ,
        ih (i + 1) _ (by omega), List.drop_eq_getElem_cons hlt, List.map_cons, List.append_assoc,
        List.getD_eq_getElem _ _ hlt]
      rfl
  have hinit : Frequencies.SimpleFrequencyTable.init (t.frequencies.map Nat.cast) =
      .ok (Frequencies.ofReference t false) :=
    Frequencies.init_eq (by simpa using hne) fun f hf => by
      obtain ⟨n, -, rfl⟩ := List.mem_map.mp hf
      exact Int.natCast_nonneg n
  have hall := hloop t.getSymbolLimit 0 [] rfl
  rw [List.drop_zero, List.nil_append] at hall
  rw [SimpleFrequencyTable.copy, h.limit, andThen_ok, Int.toNat_natCast]
  rw [Nat.cast_zero] at hall
  rw [hall, andThen_ok, hinit]
  rfl

/-! ## The coder over such an object -/

section

variable {σ : Type} {m : Methods σ} {s : σ} {t : FrequencyTable} (h : Represents m s t)

include h

theorem update_refines {δ : Type} (v : Virtual δ) {symbol : Nat} (hlt : symbol < t.getSymbolLimit)
    (hpos : t.getTotal ≠ 0) (hmax : t.getTotal ≤ MAX_TOTAL) (c : Coder δ) :
    update m v symbol s c = ((.ok (), s), Reference.update v t symbol c) := by
  rw [update, ends, h.total, andThen_ok, h.low symbol hlt, andThen_ok, h.high symbol hlt,
    andThen_ok, if_neg (not_lt.mpr hmax), Reference.update, if_neg (not_lt.mpr hmax), if_neg hpos,
    bounds, if_neg hpos]
  rfl

theorem search_refines (value : Int) (n start stop : Nat) (hstop : stop ≤ t.getSymbolLimit) :
    search m value n start stop s =
      (.ok (ArithmeticDecoder.search t value n start stop : Int), s) := by
  induction n generalizing start stop with
  | zero => rfl
  | succ n ih =>
    rw [search, ArithmeticDecoder.search]
    by_cases hgap : stop - start > 1
    · have hmiddle : ((start : Int) + stop) >>> (1 : Nat) = ((start + stop) >>> 1 : Nat) := rfl
      have hlt : (start + stop) >>> 1 < stop := by
        rw [Nat.shiftRight_one]
        omega
      rw [if_pos (show (stop : Int) - start > 1 by omega), if_pos hgap, hmiddle]
      dsimp only
      rw [h.low _ (hlt.trans_le hstop), andThen_ok]
      dsimp only
      split
      · exact ih start _ (hlt.le.trans hstop)
      · exact ih _ stop hstop
    · rw [if_neg (show ¬ (stop : Int) - start > 1 by omega), if_neg hgap]

omit h in
theorem search_lt (value : Int) (n start stop : Nat) (hlt : start < stop) :
    ArithmeticDecoder.search t value n start stop < stop := by
  induction n generalizing start stop with
  | zero => exact hlt
  | succ n ih =>
    rw [ArithmeticDecoder.search]
    have hmiddle : (start + stop) >>> 1 = (start + stop) / 2 := Nat.shiftRight_one _
    split
    · dsimp only
      split
      · exact (ih start _ (by omega)).trans (by omega)
      · exact ih _ stop (by omega)
    · exact hlt

theorem read_refines (hne : 0 < t.getSymbolLimit) (hpos : t.getTotal ≠ 0)
    (hmax : t.getTotal ≤ MAX_TOTAL) {d : ArithmeticDecoder} (hrange : range d ≠ 0) :
    read m s d = ((.ok (d.read t).1, s), (d.read t).2) := by
  rw [read, find, h.total, andThen_ok, if_neg (not_lt.mpr hmax), if_neg hrange, h.limit,
    andThen_ok, Int.toNat_natCast, ArithmeticDecoder.read, if_neg (not_lt.mpr hmax),
    if_neg hrange]
  have hsearch := search_refines h (((d.sub.code - d.low + 1) * t.getTotal - 1).fdiv (range d))
    t.getSymbolLimit 0 t.getSymbolLimit le_rfl
  rw [Nat.cast_zero] at hsearch
  rw [hsearch]
  dsimp only
  rw [update_refines h _ (search_lt _ _ _ _ hne) hpos hmax, andThen_ok]
  rfl

theorem writes_refines (symbols : List Nat) (hx : ∀ symbol ∈ symbols, symbol < t.getSymbolLimit)
    (hpos : t.getTotal ≠ 0) (hmax : t.getTotal ≤ MAX_TOTAL) (p : ArithmeticEncoder) :
    writes m (symbols.map Nat.cast) s p =
      ((.ok (), s), Reference.writes (symbols.map (t, ·)) p) := by
  induction symbols generalizing p with
  | nil => rfl
  | cons symbol symbols ih =>
    have hwrite : write m symbol s p = ((.ok (), s), p.write t symbol) :=
      update_refines h _ (hx symbol List.mem_cons_self) hpos hmax p
    rw [List.map_cons, writes, hwrite, List.map_cons, Reference.writes]
    cases p.write t symbol with
    | ok p' => exact ih (fun x hm => hx x (List.mem_cons_of_mem _ hm)) p'
    | threw message p' => rfl
    | undefined => rfl

theorem reads_refines (hne : 0 < t.getSymbolLimit) (hpos : t.getTotal ≠ 0)
    (hmax : t.getTotal ≤ MAX_TOTAL) (n : Nat) (d : ArithmeticDecoder) :
    reads m n s d = ((d.reads t n).map Nat.cast, s) := by
  induction n generalizing d with
  | zero => rfl
  | succ n ih =>
    rw [reads, ArithmeticDecoder.reads]
    by_cases hrange : range d = 0
    · have hread : read m s d = ((.error .zeroDivisionError, s), .ok d) := by
        rw [read, find, h.total, andThen_ok, if_neg (not_lt.mpr hmax), if_pos hrange]
      rw [hread, ArithmeticDecoder.read, if_neg (not_lt.mpr hmax), if_pos hrange]
      rfl
    · rw [read_refines h hne hpos hmax hrange]
      obtain ⟨symbol, result⟩ := d.read t
      cases result with
      | ok d' =>
        change ((symbol : Int) :: (reads m n s d').1, (reads m n s d').2) = _
        rw [ih d']
        rfl
      | threw message d' => rfl
      | undefined => rfl

end

/-! ## Round trips -/

theorem steps_const (t : FrequencyTable) (past symbols : List Nat) :
    Model.steps (fun _ => t) past symbols = symbols.map (t, ·) := by
  induction symbols generalizing past with
  | nil => rfl
  | cons symbol symbols ih => rw [Model.steps, ih, List.map_cons]

theorem readsWith_const (t : FrequencyTable) (n : Nat) (past : List Nat) (d : ArithmeticDecoder) :
    d.readsWith (fun _ => t) n past = d.reads t n := by
  induction n generalizing past d with
  | zero => rfl
  | succ n ih =>
    rw [ArithmeticDecoder.readsWith, ArithmeticDecoder.reads]
    obtain ⟨symbol, result⟩ := d.read t
    cases result with
    | ok d' => exact congrArg _ (ih _ d')
    | threw message d' => rfl
    | undefined => rfl

theorem coded_lt {t : FrequencyTable} {symbol : Nat} (h : Coded t symbol) :
    symbol < t.getSymbolLimit := by
  obtain ⟨f, hf, -⟩ := h
  exact (List.getElem?_eq_some_iff.mp hf).1

/-- **Round trip** over table objects: the coder on both sides calls their methods. -/
theorem objects_roundTrip {σ τ : Type} {m : Methods σ} {m' : Methods τ} {s : σ} {s' : τ}
    {t : FrequencyTable} (h : Represents m s t) (h' : Represents m' s' t) (symbols : List Nat)
    (hx : ∀ symbol ∈ symbols, Coded t symbol) (hmax : t.getTotal ≤ MAX_TOTAL) :
    ∃ p, encode m (symbols.map Nat.cast) s = ((.ok (), s), .ok p) ∧
      reads m' symbols.length s' (ArithmeticDecoder.ofFile p.file) =
        (symbols.map Nat.cast, s') := by
  cases symbols with
  | nil =>
    obtain ⟨p, hp⟩ : ∃ p, Reference.encode [] = .ok p := by
      obtain ⟨-, p, -, hp, -⟩ := encode_spec [] nofun
      exact ⟨p, hp⟩
    refine ⟨p, ?_, rfl⟩
    rw [encode, List.map_nil, writes]
    exact congrArg ((Except.ok (), s), ·) hp
  | cons symbol symbols =>
    have hpos : t.getTotal ≠ 0 :=
      (call_valid (hx symbol List.mem_cons_self)).total_pos.ne'
    have hne : 0 < t.getSymbolLimit :=
      Nat.zero_lt_of_lt (coded_lt (hx symbol List.mem_cons_self))
    have hsteps := steps_const t [] (symbol :: symbols)
    have hadmitted : ∀ step ∈ (Model.steps (fun _ => t) [] (symbol :: symbols)), Admitted step := by
      intro step hstep
      rw [hsteps] at hstep
      obtain ⟨x, hmem, rfl⟩ := List.mem_map.mp hstep
      exact ⟨hx x hmem, hmax⟩
    obtain ⟨p, p', hp, hp', hr⟩ := encode_spec _ hadmitted
    have hread := readsWith_eq (fun _ => t) (symbol :: symbols) hadmitted
      (d := .ofFile p'.file) fresh_interval_settled ⟨rfl, ofFile_behind p'.file⟩ hp hr
    rw [readsWith_const] at hread
    refine ⟨p', ?_, ?_⟩
    · rw [encode, writes_refines h _ (fun x hm => coded_lt (hx x hm)) hpos hmax, ← hsteps]
      exact congrArg ((Except.ok (), s), ·) hp'
    · rw [reads_refines h' hne hpos hmax]
      exact congrArg (fun xs : List Nat => (xs.map (Nat.cast : Nat → Int), s')) hread

/-- A flat table on one side, and a simple one that is checked on the other. -/
theorem objects_roundTrip_flat :
    ∃ p, encode FlatFrequencyTable.methods (([2, 0, 1] : List Nat).map Nat.cast) ⟨(3 : Nat)⟩ =
        ((.ok (), ⟨(3 : Nat)⟩), .ok p) ∧
      reads (CheckedFrequencyTable.methods SimpleFrequencyTable.methods)
          ([2, 0, 1] : List Nat).length (Frequencies.ofReference ⟨List.replicate 3 1⟩ true)
          (ArithmeticDecoder.ofFile p.file) =
        (([2, 0, 1] : List Nat).map Nat.cast,
          Frequencies.ofReference ⟨List.replicate 3 1⟩ true) :=
  objects_roundTrip (flat_represents 3) (checked_represents (simple_represents _) (by decide))
    [2, 0, 1] (by decide) (by decide)

/-! ## Objects that nobody has asked -/

/-- `get_low` of a simple table whose sums are not known: it returns `None`, and knows them. -/
theorem cold_getLow (t : FrequencyTable) (symbol : Int) :
    SimpleFrequencyTable.methods.getLow symbol (Frequencies.ofReference t false) =
      (.ok none, Frequencies.ofReference t true) := by
  change ofOutcome ((Frequencies.tableOf _ false).query symbol) = _
  rw [Frequencies.query_of_none rfl rfl]
  rfl

section

variable {t : FrequencyTable} (hmax : t.getTotal ≤ MAX_TOTAL)

include hmax

/-- `update` raises before it assigns anything. -/
theorem cold_update {δ : Type} (v : Virtual δ) {symbol : Nat} (hlt : symbol < t.getSymbolLimit)
    (c : Coder δ) :
    update SimpleFrequencyTable.methods v symbol (Frequencies.ofReference t false) c =
      ((.error .typeError, Frequencies.ofReference t true), .ok c) := by
  have htotal : SimpleFrequencyTable.methods.getTotal (Frequencies.ofReference t false) =
      (.ok t.getTotal, Frequencies.ofReference t false) := by
    change (Except.ok (t.frequencies.map Nat.cast).sum, _) = _
    rw [FrequencyTable.getTotal, Nat.cast_list_sum]
  rw [update, ends, htotal, andThen_ok, cold_getLow, andThen_ok, (simple_represents t).high _ hlt,
    andThen_ok, if_neg (not_lt.mpr hmax)]
  rfl

theorem cold_read (hne : 0 < t.getSymbolLimit) {d : ArithmeticDecoder} (hrange : range d ≠ 0) :
    read SimpleFrequencyTable.methods (Frequencies.ofReference t false) d =
      ((.error .typeError, Frequencies.ofReference t true), .ok d) := by
  have htotal : SimpleFrequencyTable.methods.getTotal (Frequencies.ofReference t false) =
      (.ok t.getTotal, Frequencies.ofReference t false) := by
    change (Except.ok (t.frequencies.map Nat.cast).sum, _) = _
    rw [FrequencyTable.getTotal, Nat.cast_list_sum]
  have hlimit : SimpleFrequencyTable.methods.getSymbolLimit (Frequencies.ofReference t false) =
      (.ok (t.getSymbolLimit : Int), Frequencies.ofReference t false) := by
    change (Except.ok ((t.frequencies.map (Nat.cast : Nat → Int)).length : Int), _) = _
    rw [List.length_map]
    rfl
  obtain ⟨n, hn⟩ : ∃ n, t.getSymbolLimit = n + 1 := Nat.exists_eq_succ_of_ne_zero hne.ne'
  have hfind : find SimpleFrequencyTable.methods (Frequencies.ofReference t false) d =
      search SimpleFrequencyTable.methods
        (((d.sub.code - d.low + 1) * t.getTotal - 1).fdiv (range d)) (n + 1) 0 (n + 1 : Nat)
        (Frequencies.ofReference t false) := by
    rw [find, htotal, andThen_ok, if_neg (not_lt.mpr hmax), if_neg hrange, hlimit, andThen_ok,
      Int.toNat_natCast, hn]
  rw [search] at hfind
  split at hfind
  · -- `None > value` in the search
    dsimp only at hfind
    rw [cold_getLow, andThen_ok] at hfind
    rw [read, hfind]
  · -- a table of one symbol: `None * range` in `update`
    rw [read, hfind]
    dsimp only
    rw [← Nat.cast_zero, cold_update hmax _ hne]
    rfl

end

/-- **A new `SimpleFrequencyTable`**: the first symbol is lost, whatever the coder does with it, and
the next ones are coded as they should. -/
theorem cold_loses_first (t : FrequencyTable) (symbols : List Nat) (hne : symbols ≠ [])
    (hx : ∀ symbol ∈ symbols, Coded t symbol) (hmax : t.getTotal ≤ MAX_TOTAL) :
    ∃ s s', Frequencies.SimpleFrequencyTable.init (t.frequencies.map Nat.cast) = .ok s ∧
      (∀ symbol ∈ symbols, ∀ p,
        write SimpleFrequencyTable.methods symbol s p = ((.error .typeError, s'), .ok p)) ∧
      (∀ d, range d ≠ 0 →
        read SimpleFrequencyTable.methods s d = ((.error .typeError, s'), .ok d)) ∧
      (∀ p, writes SimpleFrequencyTable.methods (symbols.map Nat.cast) s' p =
        ((.ok (), s'), Reference.writes (symbols.map (t, ·)) p)) ∧
      ∀ n d, reads SimpleFrequencyTable.methods n s' d = ((d.reads t n).map Nat.cast, s') := by
  obtain ⟨x, hmem⟩ := List.exists_mem_of_ne_nil symbols hne
  have hlimit : 0 < t.getSymbolLimit := Nat.zero_lt_of_lt (coded_lt (hx x hmem))
  have hpos : t.getTotal ≠ 0 := (call_valid (hx x hmem)).total_pos.ne'
  have hinit : Frequencies.SimpleFrequencyTable.init (t.frequencies.map Nat.cast) =
      .ok (Frequencies.ofReference t false) := by
    refine Frequencies.init_eq (fun hnil => ?_) fun f hf => ?_
    · rw [List.map_eq_nil_iff] at hnil
      rw [FrequencyTable.getSymbolLimit, hnil] at hlimit
      exact absurd hlimit (by decide)
    · obtain ⟨n, -, rfl⟩ := List.mem_map.mp hf
      exact Int.natCast_nonneg n
  exact ⟨_, _, hinit, fun symbol hs p => cold_update hmax _ (coded_lt (hx symbol hs)) p,
    fun d hd => cold_read hmax hlimit hd,
    fun p => writes_refines (simple_represents t) _ (fun y hy => coded_lt (hx y hy)) hpos hmax p,
    fun n d => reads_refines (simple_represents t) hlimit hpos hmax n d⟩

theorem cold_loses_first_main :
    ∃ s s', Frequencies.SimpleFrequencyTable.init (([1, 2, 3, 4] : List Nat).map Nat.cast) = .ok s ∧
      (∀ symbol ∈ [0, 1, 1], ∀ p,
        write SimpleFrequencyTable.methods (symbol : Nat) s p =
          ((.error .typeError, s'), .ok p)) ∧
      (∀ d, range d ≠ 0 →
        read SimpleFrequencyTable.methods s d = ((.error .typeError, s'), .ok d)) ∧
      (∀ p, writes SimpleFrequencyTable.methods (([0, 1, 1] : List Nat).map Nat.cast) s' p =
        ((.ok (), s'), Reference.writes (([0, 1, 1] : List Nat).map (⟨[1, 2, 3, 4]⟩, ·)) p)) ∧
      ∀ n d, reads SimpleFrequencyTable.methods n s' d =
        ((d.reads ⟨[1, 2, 3, 4]⟩ n).map Nat.cast, s') :=
  cold_loses_first ⟨[1, 2, 3, 4]⟩ [0, 1, 1] (by decide) (by decide) (by decide)

/-! ## `main.py` -/

/-- `"{0:b}".format(value).zfill(bin_num)` -/
def binV (value : Int) (binNum : Nat) : List Char :=
  let digits := Nat.toDigits 2 value.natAbs
  if value < 0 then '-' :: (List.replicate (binNum - (digits.length + 1)) '0' ++ digits)
  else List.replicate (binNum - digits.length) '0' ++ digits

/-- `int` of one of these characters. -/
def intOf (c : Char) : Except PythonError Int :=
  if c = '0' then .ok 0
  else if c = '1' then .ok 1
  else .error (.valueError "invalid literal for int() with base 10: '-'")

/-- The loop of `write_binary`, over the characters that it reads. -/
def writeBinaryLoop : List Char → Frequencies.SimpleFrequencyTable → ArithmeticEncoder →
    Except PythonError Unit × Result ArithmeticEncoder
  | [], _, enc => (.ok (), .ok enc)
  | c :: cs, freqs, enc =>
    match intOf c with
    | .error e => (.error e, .ok enc)
    | .ok bit =>
      match write SimpleFrequencyTable.methods bit freqs enc with
      | ((.ok (), freqs), .ok enc) => writeBinaryLoop cs freqs enc
      | ((result, _), enc) => (result, enc)

/-- `write_binary`, and the encoder behind it. -/
def writeBinary (enc : ArithmeticEncoder) (value : Int) (binNum : Nat) :
    Except PythonError Unit × Result ArithmeticEncoder :=
  match Frequencies.SimpleFrequencyTable.init [1, 2, 3, 4] with
  | .error e => (.error (ofRaised e), .ok enc)
  | .ok freqs => writeBinaryLoop ((binV value binNum).take binNum) freqs enc

theorem mem_toDigits {n : Nat} {c : Char} (h : c ∈ Nat.toDigits 2 n) : c = '0' ∨ c = '1' := by
  induction n using Nat.strong_induction_on with
  | _ n ih =>
    rw [Nat.toDigits_eq_if (by decide)] at h
    split at h
    · next hlt =>
      rw [List.mem_singleton.mp h]
      interval_cases n
      · exact .inl rfl
      · exact .inr rfl
    · next hge =>
      rcases List.mem_append.mp h with hmem | hmem
      · exact ih _ (by omega) hmem
      · rw [List.mem_singleton.mp hmem]
        rcases Nat.mod_two_eq_zero_or_one n with hz | ho
        · rw [hz]
          exact .inl rfl
        · rw [ho]
          exact .inr rfl

/-- The first character is a sign or a digit. -/
theorem head_binV (value : Int) {binNum : Nat} (h : 0 < binNum) :
    ∃ c cs, (binV value binNum).take binNum = c :: cs ∧
      if value < 0 then c = '-' else c = '0' ∨ c = '1' := by
  obtain ⟨n, rfl⟩ : ∃ n, binNum = n + 1 := Nat.exists_eq_succ_of_ne_zero h.ne'
  rw [binV]
  by_cases hneg : value < 0
  · simp only [if_pos hneg]
    exact ⟨'-', _, rfl, rfl⟩
  · simp only [if_neg hneg]
    have hall : ∀ c ∈ List.replicate (n + 1 - (Nat.toDigits 2 value.natAbs).length) '0' ++
        Nat.toDigits 2 value.natAbs, c = '0' ∨ c = '1' := by
      intro c hc
      rcases List.mem_append.mp hc with hmem | hmem
      · exact .inl (List.eq_of_mem_replicate hmem)
      · exact mem_toDigits hmem
    cases hl : List.replicate (n + 1 - (Nat.toDigits 2 value.natAbs).length) '0' ++
        Nat.toDigits 2 value.natAbs with
    | nil =>
      have hnil := (List.append_eq_nil_iff.mp hl).2
      have hlen := (List.append_eq_nil_iff.mp hl).1
      rw [hnil] at hlen
      cases hlen
    | cons c cs =>
      exact ⟨c, cs.take n, rfl, hall c (by rw [hl]; exact List.mem_cons_self)⟩

/-- **`write_binary`** writes nothing, whatever the value and the width: it raises at the first
character, and the encoder and its file stay as they are. -/
theorem writeBinary_eq (enc : ArithmeticEncoder) (value : Int) (binNum : Nat) :
    writeBinary enc value binNum =
      (if binNum = 0 then .ok ()
        else if value < 0 then
          .error (.valueError "invalid literal for int() with base 10: '-'")
        else .error .typeError, .ok enc) := by
  have hinit : Frequencies.SimpleFrequencyTable.init [1, 2, 3, 4] =
      .ok (Frequencies.ofReference ⟨[1, 2, 3, 4]⟩ false) := by decide
  have hcold : ∀ symbol : Nat, symbol < 4 →
      write SimpleFrequencyTable.methods symbol (Frequencies.ofReference ⟨[1, 2, 3, 4]⟩ false) enc =
        ((.error .typeError, Frequencies.ofReference ⟨[1, 2, 3, 4]⟩ true), .ok enc) :=
    fun symbol hlt => cold_update (t := ⟨[1, 2, 3, 4]⟩) (by decide) _ hlt enc
  rw [writeBinary, hinit]
  dsimp only
  by_cases h0 : binNum = 0
  · rw [h0, List.take_zero, if_pos rfl]
    rfl
  · obtain ⟨c, cs, hbin, hc⟩ := head_binV value (Nat.pos_of_ne_zero h0)
    rw [hbin, writeBinaryLoop, if_neg h0]
    split at hc
    · next hneg =>
      subst hc
      rw [if_pos hneg]
      rfl
    · next hneg =>
      rw [if_neg hneg]
      rcases hc with rfl | rfl
      · have hzero := hcold 0 (by decide)
        rw [show intOf '0' = .ok ((0 : Nat) : Int) from rfl]
        dsimp only
        rw [hzero]
      · have hone := hcold 1 (by decide)
        rw [show intOf '1' = .ok ((1 : Nat) : Int) from rfl]
        dsimp only
        rw [hone]

end DeepSpace.TableObject
