import Mathlib.Data.Nat.Digits.Defs
import Mathlib.Tactic.Ring
import WordStack.Numeral

/-! # Reading numbers that were written

The value of digits, most significant first, is `value base digits`. Reading gives the value
(`readFrom_eq`), and what is written in base ten, in base sixteen, with leading zeros or as the
bytes of a string reads back as what it was written from. Nothing else is read in base ten
(`decimal?_eq_some_iff`), nor as bytes but for the case of digits (`hexPairs?_eq_some_iff`).

All characters written are letters or digits (`Char.isAlphanum`); that is what keeps them apart from
separators, comments and line ends. -/

namespace WordStack.Numeral

/-- The value of digits, most significant first. -/
def value (base : Nat) (digits : List Char) : Nat :=
  Nat.ofDigits base (digits.reverse.map fun c => (hexDigit? c).getD 0)

theorem value_nil (base : Nat) : value base [] = 0 := rfl

theorem value_cons (base : Nat) (c : Char) (cs : List Char) :
    value base (c :: cs) = (hexDigit? c).getD 0 * base ^ cs.length + value base cs := by
  unfold value
  rw [List.reverse_cons, List.map_append, Nat.ofDigits_append]
  simp only [List.length_map, List.length_reverse, List.map_cons, List.map_nil,
    Nat.ofDigits_singleton]
  ring

/-! ## Reading -/

theorem hexDigit?_of_decimalDigit? {c : Char} {d : Nat} (h : decimalDigit? c = some d) :
    hexDigit? c = some d := by
  unfold decimalDigit? at h
  unfold hexDigit?
  split at h
  · rw [if_pos ‹_›]; exact h
  · exact absurd h (by simp)

theorem readFrom_eq {base : Nat} {digit? : Char → Option Nat}
    (hd : ∀ c d, digit? c = some d → hexDigit? c = some d) :
    ∀ (cs : List Char) (n v : Nat), readFrom base digit? n cs = some v →
      v = n * base ^ cs.length + value base cs
  | [], n, v, h => by
    rw [readFrom, Option.some.injEq] at h
    simp [value_nil, h]
  | c :: cs, n, v, h => by
    rw [readFrom, Option.bind_eq_some_iff] at h
    obtain ⟨d, hc, h⟩ := h
    have ih := readFrom_eq hd cs (n * base + d) v h
    rw [ih, value_cons, hd c d hc, Option.getD_some, List.length_cons, pow_succ]
    ring

theorem value_of_decimal? {cs : List Char} {v : Nat} (h : decimal? cs = some v) :
    v = value 10 cs := by
  unfold decimal? at h
  split at h
  · exact absurd h (by simp)
  · have := readFrom_eq (fun _ _ => hexDigit?_of_decimalDigit?) cs 0 v h
    rw [this, Nat.zero_mul, Nat.zero_add]

theorem value_of_hex? {cs : List Char} {v : Nat} (h : hex? cs = some v) : v = value 16 cs := by
  unfold hex? at h
  split at h
  · exact absurd h (by simp)
  · have := readFrom_eq (fun _ _ hc => hc) cs 0 v h
    rw [this, Nat.zero_mul, Nat.zero_add]

theorem readFrom_lt {base : Nat} {digit? : Char → Option Nat}
    (hb : ∀ c d, digit? c = some d → d < base) :
    ∀ (cs : List Char) (n v : Nat), readFrom base digit? n cs = some v →
      v < (n + 1) * base ^ cs.length
  | [], n, v, h => by
    rw [readFrom, Option.some.injEq] at h
    simp [h]
  | c :: cs, n, v, h => by
    rw [readFrom, Option.bind_eq_some_iff] at h
    obtain ⟨d, hc, h⟩ := h
    have hd := hb c d hc
    have hle : n * base + d + 1 ≤ (n + 1) * base := by rw [Nat.add_mul]; omega
    calc v < (n * base + d + 1) * base ^ cs.length := readFrom_lt hb cs _ v h
      _ ≤ (n + 1) * base * base ^ cs.length := Nat.mul_le_mul_right _ hle
      _ = (n + 1) * base ^ (c :: cs).length := by rw [List.length_cons, pow_succ]; ring

theorem lt_of_hexDigit? {c : Char} {d : Nat} (h : hexDigit? c = some d) : d < 16 := by
  have hle : ∀ {a b : Char}, a ≤ b → a.toNat ≤ b.toNat := fun hab => Char.le_def.mp hab
  unfold hexDigit? at h
  split at h
  · rename_i hc
    have h2 := hle hc.2
    simp only [Option.some.injEq, Char.reduceToNat] at h h2
    omega
  · split at h
    · rename_i hc
      have h2 := hle hc.2
      simp only [Option.some.injEq, Char.reduceToNat] at h h2
      omega
    · split at h
      · rename_i hc
        have h2 := hle hc.2
        simp only [Option.some.injEq, Char.reduceToNat] at h h2
        omega
      · exact absurd h (by simp)

theorem lt_of_hex? {cs : List Char} {v : Nat} (h : hex? cs = some v) : v < 16 ^ cs.length := by
  unfold hex? at h
  split at h
  · exact absurd h (by simp)
  · have := readFrom_lt (fun _ _ => lt_of_hexDigit?) cs 0 v h
    rwa [Nat.zero_add, Nat.one_mul] at this

theorem readFrom_append (base : Nat) (digit? : Char → Option Nat) (ds : List Char) :
    ∀ (cs : List Char) (n : Nat), readFrom base digit? n (cs ++ ds) =
      (readFrom base digit? n cs).bind fun m => readFrom base digit? m ds
  | [], n => rfl
  | c :: cs, n => by
    rw [List.cons_append, readFrom, readFrom]
    cases digit? c with
    | none => rfl
    | some d => exact readFrom_append base digit? ds cs _

theorem isSome_of_readFrom {base : Nat} {digit? : Char → Option Nat} :
    ∀ {cs : List Char} {n v : Nat}, readFrom base digit? n cs = some v →
      ∀ c ∈ cs, (digit? c).isSome
  | [], _, _, _, _, hc => absurd hc (by simp)
  | c :: cs, n, v, h, x, hx => by
    rw [readFrom, Option.bind_eq_some_iff] at h
    obtain ⟨d, hc, h⟩ := h
    rcases List.mem_cons.mp hx with rfl | hx
    · rw [hc]; rfl
    · exact isSome_of_readFrom h x hx

/-! ## Digits -/

theorem isDigit_iff {c : Char} : c.isDigit ↔ 48 ≤ c.toNat ∧ c.toNat ≤ 57 := by
  show (decide _ && decide _) = true ↔ _
  rw [Bool.and_eq_true, decide_eq_true_iff, decide_eq_true_iff]
  exact Iff.rfl

theorem isAlpha_iff {c : Char} :
    c.isAlpha ↔ 65 ≤ c.toNat ∧ c.toNat ≤ 90 ∨ 97 ≤ c.toNat ∧ c.toNat ≤ 122 := by
  show (decide (_ ∧ _) || (decide _ && decide _)) = true ↔ _
  rw [Bool.or_eq_true, Bool.and_eq_true, decide_eq_true_iff, decide_eq_true_iff,
    decide_eq_true_iff]
  exact Iff.rfl

theorem isAlphanum_iff {c : Char} : c.isAlphanum ↔ c.isAlpha ∨ c.isDigit := by
  show (c.isAlpha || c.isDigit) = true ↔ _
  rw [Bool.or_eq_true]

theorem isDigit_of_decimalDigit? {c : Char} (h : (decimalDigit? c).isSome) : c.isDigit := by
  unfold decimalDigit? at h
  split at h
  · rename_i hc
    exact isDigit_iff.mpr hc
  · exact absurd h (by simp)

theorem hexDigit?_digitChar {d : Nat} (h : d < 16) : hexDigit? (Nat.digitChar d) = some d := by
  have all : ∀ d : Fin 16, hexDigit? (Nat.digitChar d) = some d.val := by decide
  exact all ⟨d, h⟩

theorem decimalDigit?_digitChar {d : Nat} (h : d < 10) :
    decimalDigit? (Nat.digitChar d) = some d := by
  have all : ∀ d : Fin 10, decimalDigit? (Nat.digitChar d) = some d.val := by decide
  exact all ⟨d, h⟩

theorem digitChar_of_decimalDigit? {c : Char} {d : Nat} (h : decimalDigit? c = some d) :
    d < 10 ∧ Nat.digitChar d = c := by
  unfold decimalDigit? at h
  split at h
  · rename_i hc
    have hlow : 48 ≤ c.toNat := Char.le_def.mp hc.1
    have hhigh : c.toNat ≤ 57 := Char.le_def.mp hc.2
    simp only [Option.some.injEq, Char.reduceToNat] at h
    refine ⟨by omega, Char.toNat_inj.mp ?_⟩
    rw [Nat.toNat_digitChar_of_lt_ten (by omega)]
    omega
  · exact absurd h (by simp)

theorem isAlphanum_digitChar {d : Nat} (h : d < 16) : (Nat.digitChar d).isAlphanum := by
  have all : ∀ d : Fin 16, (Nat.digitChar d).isAlphanum := by decide
  exact all ⟨d, h⟩

theorem hexDigit?_toUpper (c : Char) : hexDigit? c.toUpper = hexDigit? c := by
  by_cases h : 97 ≤ c.toNat ∧ c.toNat ≤ 122
  · have all : ∀ k : Fin 26, hexDigit? (Char.ofNat (97 + k.val)).toUpper =
        hexDigit? (Char.ofNat (97 + k.val)) := by decide
    have hc := all ⟨c.toNat - 97, by omega⟩
    rwa [Nat.add_sub_cancel' h.1, Char.ofNat_toNat] at hc
  · have hsame : c.toUpper = c := dif_neg h
    rw [hsame]

theorem hexDigit?_toLower (c : Char) : hexDigit? c.toLower = hexDigit? c := by
  by_cases h : 65 ≤ c.toNat ∧ c.toNat ≤ 90
  · have all : ∀ k : Fin 26, hexDigit? (Char.ofNat (65 + k.val)).toLower =
        hexDigit? (Char.ofNat (65 + k.val)) := by decide
    have hc := all ⟨c.toNat - 65, by omega⟩
    rwa [Nat.add_sub_cancel' h.1, Char.ofNat_toNat] at hc
  · have hsame : c.toLower = c := dif_neg h
    rw [hsame]

theorem isAlphanum_of_hexDigit? {c : Char} (h : (hexDigit? c).isSome) : c.isAlphanum := by
  rw [isAlphanum_iff, isAlpha_iff, isDigit_iff]
  unfold hexDigit? at h
  split at h
  · rename_i hc
    exact Or.inr hc
  · split at h
    · rename_i hc
      have hlow : 97 ≤ c.toNat := Char.le_def.mp hc.1
      have hhigh : c.toNat ≤ 102 := Char.le_def.mp hc.2
      omega
    · split at h
      · rename_i hc
        have hlow : 65 ≤ c.toNat := Char.le_def.mp hc.1
        have hhigh : c.toNat ≤ 70 := Char.le_def.mp hc.2
        omega
      · exact absurd h (by simp)

/-- **A hex digit** is the digit of its value, in either case. -/
theorem hexDigit?_eq_some_iff {c : Char} {d : Nat} :
    hexDigit? c = some d ↔ d < 16 ∧ c.toLower = Nat.digitChar d := by
  constructor
  · intro h
    have hd := lt_of_hexDigit? h
    have hc : c.toNat < 123 := by
      have hletter := isAlphanum_of_hexDigit? (Option.isSome_of_eq_some h)
      rw [isAlphanum_iff, isAlpha_iff, isDigit_iff] at hletter
      omega
    have all : ∀ k : Fin 123, ∀ d : Fin 16, hexDigit? (Char.ofNat k.val) = some d.val →
        (Char.ofNat k.val).toLower = Nat.digitChar d.val := by decide +kernel
    have hall := all ⟨c.toNat, hc⟩ ⟨d, hd⟩
    rw [Char.ofNat_toNat] at hall
    exact ⟨hd, hall h⟩
  · rintro ⟨hd, hc⟩
    rw [← hexDigit?_toLower, hc, hexDigit?_digitChar hd]

theorem decimalDigit?_eq_some_iff {c : Char} {d : Nat} :
    decimalDigit? c = some d ↔ d < 10 ∧ c = Nat.digitChar d := by
  constructor
  · intro h
    obtain ⟨hd, hc⟩ := digitChar_of_decimalDigit? h
    exact ⟨hd, hc.symm⟩
  · rintro ⟨hd, rfl⟩
    exact decimalDigit?_digitChar hd

theorem hex?_map_toUpper (cs : List Char) : hex? (cs.map Char.toUpper) = hex? cs := by
  have hread : ∀ n, readFrom 16 hexDigit? n (cs.map Char.toUpper) = readFrom 16 hexDigit? n cs := by
    induction cs with
    | nil => exact fun n => rfl
    | cons c cs ih =>
      intro n
      rw [List.map_cons, readFrom, readFrom, hexDigit?_toUpper]
      simp only [ih]
  simp only [hex?, List.map_eq_nil_iff, hread]

/-! ## Numbers -/

theorem readFrom_eq_some_iff {base : Nat} {digit? : Char → Option Nat} {cs : List Char}
    {n v : Nat} :
    readFrom base digit? n cs = some v ↔
      ∃ ds : List Nat, cs.map digit? = ds.map some ∧
        v = n * base ^ ds.length + Nat.ofDigits base ds.reverse := by
  induction cs generalizing n with
  | nil =>
    rw [readFrom, Option.some.injEq]
    constructor
    · rintro rfl
      exact ⟨[], rfl, by simp⟩
    · rintro ⟨ds, hds, rfl⟩
      obtain rfl : ds = [] := List.map_eq_nil_iff.mp hds.symm
      simp
  | cons c cs ih =>
    have hstep : ∀ (d : Nat) (ds : List Nat),
        (n * base + d) * base ^ ds.length + Nat.ofDigits base ds.reverse =
          n * base ^ (d :: ds).length + Nat.ofDigits base (d :: ds).reverse := by
      intro d ds
      rw [List.reverse_cons, Nat.ofDigits_append, Nat.ofDigits_singleton, List.length_reverse,
        List.length_cons, pow_succ]
      ring
    rw [readFrom, Option.bind_eq_some_iff]
    constructor
    · rintro ⟨d, hc, h⟩
      obtain ⟨ds, hds, rfl⟩ := ih.mp h
      exact ⟨d :: ds, by rw [List.map_cons, List.map_cons, hc, hds], hstep d ds⟩
    · rintro ⟨ds, hds, rfl⟩
      obtain ⟨d, ds, rfl, hc, hrest⟩ := List.map_eq_cons_iff.mp hds.symm
      exact ⟨d, hc.symm, ih.mpr ⟨ds, hrest.symm, (hstep d ds).symm⟩⟩

theorem map_digit?_iff {base : Nat} {digit? : Char → Option Nat} {fold : Char → Char}
    (h : ∀ {c d}, digit? c = some d ↔ d < base ∧ fold c = Nat.digitChar d) {cs : List Char}
    {ds : List Nat} :
    cs.map digit? = ds.map some ↔ (∀ d ∈ ds, d < base) ∧ cs.map fold = ds.map Nat.digitChar := by
  induction cs generalizing ds with
  | nil => cases ds <;> simp
  | cons c cs ih =>
    cases ds with
    | nil => simp
    | cons d ds =>
      rw [List.map_cons, List.map_cons, List.cons.injEq, ih, h, List.forall_mem_cons, List.map_cons,
        List.map_cons, List.cons.injEq]
      exact and_and_and_comm

/-- **A number is read** from one digit or more, which make it up. -/
theorem read_eq_some_iff {base : Nat} {digit? : Char → Option Nat} {fold : Char → Char}
    (h : ∀ {c d}, digit? c = some d ↔ d < base ∧ fold c = Nat.digitChar d) {cs : List Char}
    {n : Nat} :
    (if cs = [] then none else readFrom base digit? 0 cs) = some n ↔
      ∃ ds : List Nat, 1 ≤ ds.length ∧ (∀ d ∈ ds, d < base) ∧
        cs.map fold = ds.map Nat.digitChar ∧ n = Nat.ofDigits base ds.reverse := by
  have hne : ∀ {ds : List Nat}, cs.map fold = ds.map Nat.digitChar → (cs ≠ [] ↔ 1 ≤ ds.length) := by
    intro ds hds
    have hlen := congrArg List.length hds
    rw [List.length_map, List.length_map] at hlen
    rw [← hlen]
    exact List.length_pos_iff.symm
  rw [ite_eq_iff]
  simp only [reduceCtorEq, and_false, false_or, readFrom_eq_some_iff, map_digit?_iff h,
    Nat.zero_mul, Nat.zero_add]
  constructor
  · rintro ⟨hcs, ds, ⟨hlt, hds⟩, rfl⟩
    exact ⟨ds, (hne hds).mp hcs, hlt, hds, rfl⟩
  · rintro ⟨ds, hpos, hlt, hds, rfl⟩
    exact ⟨(hne hds).mpr hpos, ds, ⟨hlt, hds⟩, rfl⟩

theorem readFrom_toDigits {base : Nat} {digit? : Char → Option Nat} (hb : 1 < base)
    (hd : ∀ d < base, digit? (Nat.digitChar d) = some d) (n : Nat) :
    readFrom base digit? 0 (Nat.toDigits base n) = some n := by
  induction n using Nat.strongRecOn with
  | _ n ih =>
    by_cases h : n < base
    · rw [Nat.toDigits_of_lt_base h, readFrom, hd n h]
      simp [readFrom]
    · have hmod : n % base < base := Nat.mod_lt n (by omega)
      rw [Nat.toDigits_of_base_le hb (by omega), readFrom_append,
        ih (n / base) (Nat.div_lt_self (by omega) hb), Option.bind_some, readFrom, hd _ hmod,
        Option.bind_some, readFrom, Nat.div_add_mod']

theorem readFrom_replicate_zero {base : Nat} {digit? : Char → Option Nat}
    (hd : digit? '0' = some 0) (cs : List Char) :
    ∀ k, readFrom base digit? 0 (List.replicate k '0' ++ cs) = readFrom base digit? 0 cs
  | 0 => rfl
  | k + 1 => by
    rw [List.replicate_succ, List.cons_append, readFrom, hd, Option.bind_some, Nat.zero_mul,
      Nat.zero_add]
    exact readFrom_replicate_zero hd cs k

theorem decimal?_decimal (n : Nat) : decimal? (decimal n).toList = some n := by
  unfold decimal decimal?
  rw [String.toList_ofList, if_neg Nat.toDigits_ne_nil]
  exact readFrom_toDigits (by omega) (fun _ => decimalDigit?_digitChar) n

theorem hex?_hexPadded (width n : Nat) : hex? (hexPadded width n).toList = some n := by
  unfold hexPadded hex?
  rw [String.toList_ofList, if_neg (by simp [List.leftpad])]
  unfold List.leftpad
  rw [readFrom_replicate_zero (by decide)]
  exact readFrom_toDigits (by omega) (fun _ => hexDigit?_digitChar) n

theorem decimal_inj {m n : Nat} (h : decimal m = decimal n) : m = n := by
  have hm := decimal?_decimal m
  rw [h, decimal?_decimal] at hm
  exact (Option.some.inj hm).symm

theorem toDigits_of_readFrom :
    ∀ {cs : List Char} {n v : Nat}, 0 < n → readFrom 10 decimalDigit? n cs = some v →
      Nat.toDigits 10 v = Nat.toDigits 10 n ++ cs
  | [], n, v, _, h => by
    rw [readFrom, Option.some.injEq] at h
    rw [h, List.append_nil]
  | c :: cs, n, v, hn, h => by
    rw [readFrom, Option.bind_eq_some_iff] at h
    obtain ⟨d, hc, h⟩ := h
    obtain ⟨hd, hchar⟩ := digitChar_of_decimalDigit? hc
    have hdigit : Nat.toDigits 10 (n * 10 + d) = Nat.toDigits 10 n ++ [c] := by
      rw [Nat.mul_comm, ← Nat.toDigits_append_toDigits (by omega) hn hd,
        Nat.toDigits_of_lt_base hd, hchar]
    rw [toDigits_of_readFrom (by omega) h, hdigit, List.append_assoc, List.singleton_append]

theorem decimalDigit?_zero : decimalDigit? '0' = some 0 := by decide

/-- **What is read in base ten** is written as it stands, but for zeros in front. -/
theorem decimal?_eq_some_iff {cs : List Char} {n : Nat} :
    decimal? cs = some n ↔ ∃ zeros, cs = List.replicate zeros '0' ++ (decimal n).toList := by
  unfold decimal? decimal
  rw [String.toList_ofList]
  constructor
  · intro h
    induction cs with
    | nil => exact absurd h (by simp)
    | cons c cs ih =>
      rw [if_neg (List.cons_ne_nil c cs), readFrom, Option.bind_eq_some_iff] at h
      obtain ⟨d, hc, h⟩ := h
      obtain ⟨hd, hchar⟩ := digitChar_of_decimalDigit? hc
      rw [Nat.zero_mul, Nat.zero_add] at h
      rcases Nat.eq_zero_or_pos d with rfl | hpos
      · obtain rfl : '0' = c := hchar
        by_cases hnil : cs = []
        · rw [hnil, readFrom, Option.some.injEq] at h
          exact ⟨0, by rw [hnil, ← h]; rfl⟩
        · rw [if_neg hnil] at ih
          obtain ⟨zeros, hzeros⟩ := ih h
          exact ⟨zeros + 1, by rw [List.replicate_succ, List.cons_append, ← hzeros]⟩
      · refine ⟨0, ?_⟩
        rw [toDigits_of_readFrom hpos h, Nat.toDigits_of_lt_base hd, hchar]
        rfl
  · rintro ⟨zeros, rfl⟩
    rw [if_neg (List.append_ne_nil_of_right_ne_nil _ Nat.toDigits_ne_nil),
      readFrom_replicate_zero decimalDigit?_zero]
    exact readFrom_toDigits (by omega) (fun _ => decimalDigit?_digitChar) n

theorem isAlphanum_toDigits {base : Nat} (hb : 1 < base) (hb' : base ≤ 16) (n : Nat) :
    ∀ c ∈ Nat.toDigits base n, c.isAlphanum := by
  induction n using Nat.strongRecOn with
  | _ n ih =>
    intro c hc
    by_cases h : n < base
    · rw [Nat.toDigits_of_lt_base h, List.mem_singleton] at hc
      rw [hc]
      exact isAlphanum_digitChar (by omega)
    · rw [Nat.toDigits_of_base_le hb (by omega), List.mem_append, List.mem_singleton] at hc
      rcases hc with hc | rfl
      · exact ih _ (Nat.div_lt_self (by omega) hb) c hc
      · have := Nat.mod_lt n (show 0 < base by omega)
        exact isAlphanum_digitChar (by omega)

theorem isAlphanum_decimal (n : Nat) : ∀ c ∈ (decimal n).toList, c.isAlphanum := by
  unfold decimal
  rw [String.toList_ofList]
  exact isAlphanum_toDigits (by omega) (by omega) n

theorem isAlphanum_hexPadded (width n : Nat) : ∀ c ∈ (hexPadded width n).toList, c.isAlphanum := by
  unfold hexPadded List.leftpad
  rw [String.toList_ofList]
  intro c hc
  rcases List.mem_append.mp hc with hc | hc
  · rw [List.eq_of_mem_replicate hc]; rfl
  · exact isAlphanum_toDigits (by omega) (by omega) n c hc

theorem hex_eq (n : Nat) : hex n = hexPadded 0 n := by
  unfold hex hexPadded List.leftpad
  rw [Nat.zero_sub, List.replicate_zero, List.nil_append]

theorem length_hex_le {width n : Nat} (hpos : 0 < width) (h : n < 16 ^ width) :
    (hex n).toList.length ≤ width := by
  unfold hex
  rw [String.toList_ofList]
  exact (Nat.length_toDigits_le_iff (by omega) hpos).mpr h

theorem toList_hexPadded_of_lt {d : Nat} (hd : d < 16) :
    (hexPadded 1 d).toList = [Nat.digitChar d] := by
  unfold hexPadded
  rw [String.toList_ofList, Nat.toDigits_of_lt_base hd]
  rfl

theorem leftpad_toDigits_succ {base width d : Nat} (hb : 1 < base) (n : Nat) (hw : 1 ≤ width)
    (hd : d < base) :
    (Nat.toDigits base (n * base + d)).leftpad (width + 1) '0' =
      (Nat.toDigits base n).leftpad width '0' ++ [Nat.digitChar d] := by
  unfold List.leftpad
  by_cases hn : n = 0
  · obtain ⟨k, rfl⟩ := Nat.exists_eq_add_of_le' hw
    rw [hn, Nat.zero_mul, Nat.zero_add, Nat.toDigits_of_lt_base hd, Nat.toDigits_zero,
      List.length_singleton, List.length_singleton, Nat.add_sub_cancel, Nat.add_sub_cancel,
      List.replicate_succ']
  · have hle : base ≤ n * base + d :=
      (Nat.le_mul_of_pos_left base (Nat.pos_of_ne_zero hn)).trans (Nat.le_add_right _ d)
    have hdiv : (n * base + d) / base = n := by
      rw [Nat.add_comm, Nat.add_mul_div_right _ _ (by omega), Nat.div_eq_of_lt hd, Nat.zero_add]
    have hmod : (n * base + d) % base = d := by
      rw [Nat.add_comm, Nat.add_mul_mod_self_right, Nat.mod_eq_of_lt hd]
    rw [Nat.toDigits_of_base_le hb hle, hdiv, hmod, List.length_append,
      List.length_singleton, Nat.add_sub_add_right, List.append_assoc]

theorem toList_hexPadded_succ {width d : Nat} (n : Nat) (hw : 1 ≤ width) (hd : d < 16) :
    (hexPadded (width + 1) (n * 16 + d)).toList =
      (hexPadded width n).toList ++ [Nat.digitChar d] := by
  unfold hexPadded
  rw [String.toList_ofList, String.toList_ofList, leftpad_toDigits_succ (by omega) n hw hd]

/-! ## Bytes -/

theorem length_flatMap_hexByte (bytes : List UInt8) :
    (bytes.flatMap hexByte).length = 2 * bytes.length := by
  induction bytes with
  | nil => rfl
  | cons b bytes ih => simp [hexByte, ih]; omega

theorem forall_mem_flatMap_hexByte {p : Char → Prop} (h : ∀ d < 16, p (Nat.digitChar d))
    (bytes : List UInt8) : ∀ c ∈ bytes.flatMap hexByte, p c := by
  intro c hc
  obtain ⟨b, -, hc⟩ := List.mem_flatMap.mp hc
  have hb := b.toNat_lt
  simp only [hexByte, List.mem_cons, List.not_mem_nil, or_false] at hc
  rcases hc with rfl | rfl
  · exact h _ (by omega)
  · exact h _ (by omega)

theorem isAlphanum_flatMap_hexByte (bytes : List UInt8) :
    ∀ c ∈ bytes.flatMap hexByte, c.isAlphanum :=
  forall_mem_flatMap_hexByte (fun _ => isAlphanum_digitChar) bytes

/-- The values of the two hex digits of a byte. -/
def halves (b : UInt8) : List Nat := [b.toNat / 16, b.toNat % 16]

theorem ofNat_eq_iff {high low : Nat} (hhigh : high < 16) (hlow : low < 16) {b : UInt8} :
    UInt8.ofNat (16 * high + low) = b ↔ high = b.toNat / 16 ∧ low = b.toNat % 16 := by
  have hvalue : (UInt8.ofNat (16 * high + low)).toNat = 16 * high + low :=
    Nat.mod_eq_of_lt (show 16 * high + low < 256 by omega)
  rw [← UInt8.toNat_inj, hvalue]
  omega

/-- **Pairs of digits are read** as the bytes with these digits. -/
theorem hexPairs?_eq_some_iff {cs : List Char} {bytes : List UInt8} :
    hexPairs? cs = some bytes ↔ cs.map hexDigit? = (bytes.flatMap halves).map some := by
  fun_induction hexPairs? cs generalizing bytes with
  | case1 => cases bytes <;> simp [halves]
  | case2 c => cases bytes <;> simp [halves]
  | case3 high low rest ih =>
    cases bytes with
    | nil => cases hexDigit? high <;> cases hexDigit? low <;> simp
    | cons b bytes =>
      simp only [Option.bind_eq_some_iff, Option.map_eq_some_iff, ih, List.cons.injEq,
        List.map_cons, List.flatMap_cons, halves, List.cons_append, List.nil_append]
      constructor
      · rintro ⟨h, hhigh, l, hlow, rest', hrest, hb, rfl⟩
        obtain ⟨rfl, rfl⟩ := (ofNat_eq_iff (lt_of_hexDigit? hhigh) (lt_of_hexDigit? hlow)).mp hb
        exact ⟨hhigh, hlow, hrest⟩
      · rintro ⟨hhigh, hlow, hrest⟩
        exact ⟨_, hhigh, _, hlow, _, hrest,
          (ofNat_eq_iff (lt_of_hexDigit? hhigh) (lt_of_hexDigit? hlow)).mpr ⟨rfl, rfl⟩, rfl⟩

theorem map_hexDigit?_flatMap_hexByte (bytes : List UInt8) :
    (bytes.flatMap hexByte).map hexDigit? = (bytes.flatMap halves).map some := by
  have hbyte : ∀ b : UInt8, (hexByte b).map hexDigit? = (halves b).map some := by
    intro b
    have hb := b.toNat_lt
    show [hexDigit? (Nat.digitChar (b.toNat / 16)), hexDigit? (Nat.digitChar (b.toNat % 16))] = _
    rw [hexDigit?_digitChar (by omega), hexDigit?_digitChar (by omega)]
    rfl
  rw [List.map_flatMap, List.map_flatMap]
  simp only [hbyte]

theorem hexPairs?_flatMap_hexByte (bytes : List UInt8) :
    hexPairs? (bytes.flatMap hexByte) = some bytes :=
  hexPairs?_eq_some_iff.mpr (map_hexDigit?_flatMap_hexByte bytes)

theorem hexBytes_inj {bytes bytes' : List UInt8} (h : hexBytes bytes = hexBytes bytes') :
    bytes = bytes' := by
  unfold hexBytes at h
  have hb := hexPairs?_flatMap_hexByte bytes
  rw [String.ofList_injective h, hexPairs?_flatMap_hexByte] at hb
  exact (Option.some.inj hb).symm

theorem exists_hexPairs? {cs : List Char} (h : ∀ c ∈ cs, (hexDigit? c).isSome)
    (heven : cs.length % 2 = 0) : ∃ bytes, hexPairs? cs = some bytes := by
  fun_induction hexPairs? cs with
  | case1 => exact ⟨[], rfl⟩
  | case2 c => exact absurd heven (by simp)
  | case3 high low rest ih =>
    obtain ⟨hhigh, hlow, hrest⟩ : (hexDigit? high).isSome ∧ (hexDigit? low).isSome ∧
        ∀ c ∈ rest, (hexDigit? c).isSome := by simpa using h
    obtain ⟨d, hd⟩ := Option.isSome_iff_exists.mp hhigh
    obtain ⟨e, he⟩ := Option.isSome_iff_exists.mp hlow
    have heven' : rest.length % 2 = 0 := by
      rw [List.length_cons, List.length_cons] at heven
      omega
    obtain ⟨bytes, hbytes⟩ := ih hrest heven'
    exact ⟨_, by rw [hd, he, hbytes]; rfl⟩

/-- **Digits that are read in pairs** and as one number give the bytes of this number. -/
theorem readFrom_of_hexPairs? {cs : List Char} {bytes : List UInt8} (h : hexPairs? cs = some bytes)
    (n : Nat) :
    readFrom 16 hexDigit? n cs = some (bytes.foldl (fun n b => n * 256 + b.toNat) n) := by
  fun_induction hexPairs? cs generalizing bytes n with
  | case1 =>
    obtain rfl := Option.some.inj h
    rfl
  | case2 c => exact absurd h (by simp)
  | case3 high low rest ih =>
    simp only [Option.bind_eq_some_iff, Option.map_eq_some_iff] at h
    obtain ⟨d, hd, e, he, bytes, hbytes, rfl⟩ := h
    have hlt := lt_of_hexDigit? hd
    have hlt' := lt_of_hexDigit? he
    have hbyte : (UInt8.ofNat (16 * d + e)).toNat = 16 * d + e :=
      Nat.mod_eq_of_lt (show 16 * d + e < 256 by omega)
    have hsum : (n * 16 + d) * 16 + e = n * 256 + (16 * d + e) := by omega
    rw [readFrom, hd, Option.bind_some, readFrom, he, Option.bind_some, ih hbytes, List.foldl_cons,
      hbyte, hsum]

theorem readFrom_flatMap_hexByte (bytes : List UInt8) (n : Nat) :
    readFrom 16 hexDigit? n (bytes.flatMap hexByte) =
      some (bytes.foldl (fun n b => n * 256 + b.toNat) n) :=
  readFrom_of_hexPairs? (hexPairs?_flatMap_hexByte bytes) n

end WordStack.Numeral
