import BananaOS.Elf.UserStack

/-!
# Addresses as text

`net_parse_ip` reads the four numbers of an address in one loop, which keeps the index of the part,
its digits so far and its value together and may stop at any of them.  The loop is taken apart at
the dots: it reads the digits of a part in one go, and what it does next depends on the first
character that is not a digit.
-/

namespace BananaOS.Net

open Function
open Elf (CString)

/-! ## The two functions -/

def isDigit (c : BitVec 8) : Bool := 0x30 ≤ c && c ≤ 0x39

def digitVal (c : BitVec 8) : ℕ := c.toNat - 0x30

/-- The loop of `net_parse_ip`: `idx`, `digits` and `parts` when it stops, or `none` where the
function gives up.  A part is at most 255 before a digit is added, so that it cannot wrap. -/
def parseLoop : CString → ℕ → ℕ → (ℕ → ℕ) → Option (ℕ × ℕ × (ℕ → ℕ))
  | [], idx, digits, parts => some (idx, digits, parts)
  | c :: s, idx, digits, parts =>
    if 4 ≤ idx then some (idx, digits, parts)
    else if isDigit c then
      if 255 < parts idx * 10 + digitVal c then none
      else parseLoop s idx (digits + 1) (update parts idx (parts idx * 10 + digitVal c))
    else if c = 0x2E then
      if digits = 0 then none else parseLoop s (idx + 1) 0 parts
    else some (idx, digits, parts)

/-- The test after the loop. -/
def parsed (r : ℕ × ℕ × (ℕ → ℕ)) : Option (ℕ → ℕ) :=
  if r.1 ≠ 3 ∨ r.2.1 = 0 then none else some r.2.2

/-- The parts of an address, read from part `idx` on. -/
def parseParts (s : CString) (idx : ℕ) (parts : ℕ → ℕ) : Option (ℕ → ℕ) :=
  (parseLoop s idx 0 parts).bind parsed

/-- `net_parse_ip`, with `*ok` as the second result. -/
def netParseIp (s : Option CString) : ℕ × Bool :=
  match s.bind fun t => parseParts t 0 fun _ => 0 with
  | none => (0, false)
  | some p => (p 0 <<< 24 ||| p 1 <<< 16 ||| p 2 <<< 8 ||| p 3, true)

/-- The loop that fills `tmp`, last digit first. -/
def tmpDigits (v : ℕ) : CString :=
  if v = 0 then [] else BitVec.ofNat 8 (0x30 + v % 10) :: tmpDigits (v / 10)
  termination_by v
  decreasing_by omega

def octetText (v : ℕ) : CString := ((if v = 0 then [0x30] else []) ++ tmpDigits v).reverse

/-- `net_format_ip` from part `i - 1` down to 0. -/
def formatLoop (ip : ℕ) : ℕ → CString
  | 0 => []
  | i + 1 => octetText (ip >>> (i * 8) &&& 0xFF) ++ (if i ≠ 0 then [0x2E] else []) ++ formatLoop ip i

def netFormatIp (ip : ℕ) : CString := formatLoop ip 4

/-! ## Dotted quads -/

def decimal (d : CString) : ℕ := Nat.ofDigits 10 (d.reverse.map digitVal)

/-- `d` is a decimal number with value `v`, and `v` is at most 255. -/
structure Octet (d : CString) (v : ℕ) : Prop where
  nonempty : d ≠ []
  digits : ∀ c ∈ d, isDigit c
  value : decimal d = v
  le : v ≤ 255

/-- The text ends here, or goes on with neither a digit nor a dot. -/
def Ends (rest : CString) : Prop := ∀ c ∈ rest.head?, ¬ isDigit c ∧ c ≠ 0x2E

/-- `s` begins with the four numbers, with dots between them. -/
def DottedQuad (s : CString) (a b c d : ℕ) : Prop :=
  ∃ sa sb sc sd rest, s = sa ++ 0x2E :: (sb ++ 0x2E :: (sc ++ 0x2E :: (sd ++ rest))) ∧
    Octet sa a ∧ Octet sb b ∧ Octet sc c ∧ Octet sd d ∧ Ends rest

/-! ## Reading one part -/

/-- Digits read after a part that is `v` already. -/
def readOn (v : ℕ) (d : CString) : ℕ := d.foldl (fun v c => v * 10 + digitVal c) v

theorem readOn_cons (v : ℕ) (c : BitVec 8) (d : CString) :
    readOn v (c :: d) = readOn (v * 10 + digitVal c) d := List.foldl_cons ..

theorem readOn_zero (d : CString) : readOn 0 d = decimal d := by
  rw [decimal, Nat.ofDigits_eq_foldr, List.foldr_map, List.foldr_reverse, readOn]
  simp only [Nat.cast_id, Nat.mul_comm, Nat.add_comm]

theorem le_readOn (v : ℕ) (d : CString) : v ≤ readOn v d := by
  induction d generalizing v with
  | nil => exact le_rfl
  | cons c d ih => exact le_trans (by omega) (ih (v * 10 + digitVal c))

variable {parts r : ℕ → ℕ} {d rest s : CString} {i : ℕ}

theorem parseLoop_digits (hd : ∀ c ∈ d, isDigit c) (hi : i < 4) {n : ℕ} (hpart : parts i ≤ 255) :
    parseLoop (d ++ rest) i n parts = if 255 < readOn (parts i) d then none else
      parseLoop rest i (n + d.length) (update parts i (readOn (parts i) d)) := by
  induction d generalizing n parts with
  | nil => simp [readOn, hpart.not_gt]
  | cons c d ih =>
    have hc : isDigit c = true := hd c List.mem_cons_self
    rw [List.cons_append, parseLoop, if_neg hi.not_ge, if_pos hc, readOn_cons]
    by_cases hbig : 255 < parts i * 10 + digitVal c
    · rw [if_pos hbig, if_pos (hbig.trans_le (le_readOn _ d))]
    · rw [if_neg hbig, ih (fun c hc => hd c (List.mem_cons_of_mem _ hc))
        (by simpa using Nat.not_lt.mp hbig)]
      simp only [update_self, update_idem, List.length_cons, Nat.add_assoc,
        Nat.add_comm 1]

/-- The digits of a part, all read at once. -/
theorem parseParts_digits (hd : ∀ c ∈ d, isDigit c) (hi : i < 4) (hpart : parts i = 0) :
    parseParts (d ++ rest) i parts = if 255 < decimal d then none else
      (parseLoop rest i d.length (update parts i (decimal d))).bind parsed := by
  rw [parseParts, parseLoop_digits hd hi (by omega), hpart, readOn_zero, Nat.zero_add]
  split_ifs
  · rfl
  · rfl

/-- The text of a part goes as far as the digits do. -/
theorem exists_digits (s : CString) : ∃ d rest : CString, s = d ++ rest ∧ (∀ c ∈ d, isDigit c) ∧
    (Ends rest ∨ ∃ t, rest = 0x2E :: t) := by
  refine ⟨s.takeWhile isDigit, s.dropWhile isDigit, List.takeWhile_append_dropWhile.symm,
    fun c hc => List.mem_takeWhile_imp hc, ?_⟩
  have hhead := List.head?_dropWhile_not isDigit s
  cases hrest : s.dropWhile isDigit with
  | nil => exact Or.inl (by simp [Ends])
  | cons c t =>
    by_cases hc : c = 0x2E
    · exact Or.inr ⟨t, by rw [hc]⟩
    · refine Or.inl fun x hx => ?_
      obtain rfl : c = x := by simpa using hx
      exact ⟨by simpa [hrest] using hhead, hc⟩

theorem parseLoop_of_ends (h : Ends rest) (n : ℕ) :
    parseLoop rest i n parts = some (i, n, parts) := by
  cases rest with
  | nil => rfl
  | cons c t =>
    have hc := h c rfl
    rw [parseLoop, if_neg hc.1, if_neg hc.2, ite_self]

theorem parseLoop_dot (hi : i < 4) (n : ℕ) (t : CString) :
    parseLoop (0x2E :: t) i n parts = if n = 0 then none else parseLoop t (i + 1) 0 parts := by
  rw [parseLoop, if_neg hi.not_ge, if_neg (by decide), if_pos rfl]

/-- One part: the text ends with it, or goes on behind a dot. -/
theorem parseParts_part (hi : i < 4) (hpart : parts i = 0) :
    parseParts s i parts = some r ↔ ∃ d v rest, s = d ++ rest ∧ Octet d v ∧
      (Ends rest ∧ i = 3 ∧ update parts i v = r ∨
        ∃ t, rest = 0x2E :: t ∧ parseParts t (i + 1) (update parts i v) = some r) := by
  constructor
  · intro h
    obtain ⟨d, rest, rfl, hd, hrest⟩ := exists_digits s
    rw [parseParts_digits hd hi hpart] at h
    split_ifs at h with hbig
    have hoctet (h₀ : d ≠ []) : Octet d (decimal d) := ⟨h₀, hd, rfl, not_lt.mp hbig⟩
    rcases hrest with hends | ⟨t, rfl⟩
    · rw [parseLoop_of_ends hends, Option.bind_some, parsed] at h
      split_ifs at h with hbad
      obtain ⟨hidx, h₀⟩ := not_or.mp hbad
      exact ⟨d, _, rest, rfl, hoctet (by simpa using h₀),
        .inl ⟨hends, not_not.mp hidx, Option.some.inj h⟩⟩
    · rw [parseLoop_dot hi] at h
      split_ifs at h with h₀
      · simp at h
      · exact ⟨d, _, _, rfl, hoctet (by simpa using h₀), .inr ⟨t, rfl, h⟩⟩
  · rintro ⟨d, v, rest, rfl, hv, hrest⟩
    rw [parseParts_digits hv.digits hi hpart, hv.value, if_neg hv.le.not_gt]
    rcases hrest with ⟨hends, rfl, rfl⟩ | ⟨t, rfl, h⟩
    · rw [parseLoop_of_ends hends]
      simp [parsed, hv.nonempty]
    · rw [parseLoop_dot hi, if_neg (by simpa using hv.nonempty)]
      exact h

/-- After a fourth dot the loop stops at index 4, and the address is refused. -/
theorem parseParts_four (s : CString) (parts : ℕ → ℕ) : parseParts s 4 parts = none := by
  cases s with
  | nil => rfl
  | cons c s =>
    rw [parseParts, parseLoop, if_pos le_rfl]
    rfl

/-! ## The whole address -/

theorem parseParts_iff : parseParts s 0 (fun _ => 0) = some r ↔ ∃ a b c d, DottedQuad s a b c d ∧
    update (update (update (update (fun _ => 0) 0 a) 1 b) 2 c) 3 d = r := by
  constructor
  · intro h
    obtain ⟨sa, a, _, rfl, ha, ⟨-, ⟨⟩, -⟩ | ⟨t, rfl, h₁⟩⟩ := (parseParts_part (by decide) rfl).mp h
    obtain ⟨sb, b, _, rfl, hb, ⟨-, ⟨⟩, -⟩ | ⟨t, rfl, h₂⟩⟩ := (parseParts_part (by decide) rfl).mp h₁
    obtain ⟨sc, c, _, rfl, hc, ⟨-, ⟨⟩, -⟩ | ⟨t, rfl, h₃⟩⟩ := (parseParts_part (by decide) rfl).mp h₂
    obtain ⟨sd, d, rest, rfl, hd, ⟨hends, -, hr⟩ | ⟨t, rfl, h₄⟩⟩ :=
      (parseParts_part (by decide) rfl).mp h₃
    · exact ⟨a, b, c, d, ⟨sa, sb, sc, sd, rest, rfl, ha, hb, hc, hd, hends⟩, hr⟩
    · rw [parseParts_four] at h₄
      cases h₄
  · rintro ⟨a, b, c, d, ⟨sa, sb, sc, sd, rest, rfl, ha, hb, hc, hd, hends⟩, hr⟩
    refine (parseParts_part (by decide) rfl).mpr ⟨sa, a, _, rfl, ha, .inr ⟨_, rfl, ?_⟩⟩
    refine (parseParts_part (by decide) rfl).mpr ⟨sb, b, _, rfl, hb, .inr ⟨_, rfl, ?_⟩⟩
    refine (parseParts_part (by decide) rfl).mpr ⟨sc, c, _, rfl, hc, .inr ⟨_, rfl, ?_⟩⟩
    exact (parseParts_part (by decide) rfl).mpr ⟨sd, d, rest, rfl, hd, .inl ⟨hends, rfl, hr⟩⟩

theorem shift_or {a b c d : ℕ} (hb : b ≤ 255) (hc : c ≤ 255) (hd : d ≤ 255) :
    a <<< 24 ||| b <<< 16 ||| c <<< 8 ||| d = a * 2 ^ 24 + b * 2 ^ 16 + c * 2 ^ 8 + d := by
  have h₈ : c <<< 8 + d < 2 ^ 16 := by rw [Nat.shiftLeft_eq]; omega
  have h₁₆ : b <<< 16 + (c <<< 8 + d) < 2 ^ 24 := by simp only [Nat.shiftLeft_eq]; omega
  rw [Nat.or_assoc, Nat.or_assoc, ← Nat.shiftLeft_add_eq_or_of_lt (by omega : d < 2 ^ 8),
    ← Nat.shiftLeft_add_eq_or_of_lt h₈, ← Nat.shiftLeft_add_eq_or_of_lt h₁₆]
  simp only [Nat.shiftLeft_eq, Nat.add_assoc]

theorem netParseIp_of_quad {a b c d : ℕ} (h : DottedQuad s a b c d) :
    netParseIp (some s) = (a * 2 ^ 24 + b * 2 ^ 16 + c * 2 ^ 8 + d, true) := by
  have hparts := parseParts_iff.mpr ⟨a, b, c, d, h, rfl⟩
  obtain ⟨_, _, _, _, _, _, _, hb, hc, hd, _⟩ := h
  rw [netParseIp, Option.bind_some, hparts, ← shift_or hb.le hc.le hd.le]
  rfl

/-! ## Writing an address -/

theorem digit_ofNat {n : ℕ} (hn : n < 10) :
    isDigit (BitVec.ofNat 8 (0x30 + n)) ∧ digitVal (BitVec.ofNat 8 (0x30 + n)) = n := by
  interval_cases n <;> decide

theorem tmpDigits_spec (v : ℕ) : (∀ c ∈ tmpDigits v, isDigit c) ∧
    Nat.ofDigits 10 ((tmpDigits v).map digitVal) = v := by
  fun_induction tmpDigits v with
  | case1 => simp
  | case2 v hv ih =>
    obtain ⟨hdigit, hval⟩ := digit_ofNat (Nat.mod_lt v (by decide))
    constructor
    · exact List.forall_mem_cons.mpr ⟨hdigit, ih.1⟩
    · rw [List.map_cons, Nat.ofDigits_cons, ih.2, hval]
      exact Nat.mod_add_div v 10

theorem octet_octetText {v : ℕ} (hv : v ≤ 255) : Octet (octetText v) v := by
  by_cases h₀ : v = 0
  · have htext : octetText v = [0x30] := by simp [octetText, tmpDigits, h₀]
    rw [htext]
    exact ⟨by decide, by decide, h₀.symm, hv⟩
  · obtain ⟨hdigits, hvalue⟩ := tmpDigits_spec v
    have htext : octetText v = (tmpDigits v).reverse := by simp [octetText, h₀]
    refine ⟨?_, ?_, ?_, hv⟩
    · rw [htext, tmpDigits, if_neg h₀]
      simp
    · simpa [htext] using hdigits
    · rwa [decimal, htext, List.reverse_reverse]

theorem dottedQuad_netFormatIp (ip : ℕ) : DottedQuad (netFormatIp ip) (ip / 2 ^ 24 % 256)
    (ip / 2 ^ 16 % 256) (ip / 2 ^ 8 % 256) (ip % 256) := by
  have hpart (n : ℕ) : ip >>> n &&& 0xFF = ip / 2 ^ n % 256 := by
    rw [Nat.shiftRight_eq_div_pow]
    exact Nat.and_two_pow_sub_one_eq_mod _ 8
  have hoctet (n : ℕ) : Octet (octetText (n % 256)) (n % 256) := octet_octetText (by omega)
  refine ⟨_, _, _, _, [], ?_, hoctet _, hoctet _, hoctet _, hoctet _, by simp [Ends]⟩
  simp only [netFormatIp, formatLoop, hpart]
  simp

/-- **Addresses as text.**  Every address is read back from the text that is written for it; a text
is accepted just in case it begins with a dotted quad, and then the address is that of the quad. -/
theorem netParseIp_spec :
    (∀ ip < 2 ^ 32, netParseIp (some (netFormatIp ip)) = (ip, true)) ∧
      ∀ s, ((netParseIp (some s)).2 = true ↔ ∃ a b c d, DottedQuad s a b c d) ∧
        ∀ a b c d, DottedQuad s a b c d →
          (netParseIp (some s)).1 = a * 2 ^ 24 + b * 2 ^ 16 + c * 2 ^ 8 + d := by
  refine ⟨fun ip hip => ?_, fun s => ⟨⟨fun h => ?_, ?_⟩, fun a b c d h => ?_⟩⟩
  · rw [netParseIp_of_quad (dottedQuad_netFormatIp ip)]
    exact Prod.ext (by dsimp only; omega) rfl
  · cases hparts : parseParts s 0 fun _ => 0 with
    | none => simp [netParseIp, hparts] at h
    | some r =>
      obtain ⟨a, b, c, d, hquad, -⟩ := parseParts_iff.mp hparts
      exact ⟨a, b, c, d, hquad⟩
  · rintro ⟨a, b, c, d, h⟩
    rw [netParseIp_of_quad h]
  · rw [netParseIp_of_quad h]

theorem netParseIp_spec_loopback :
    netParseIp (some (netFormatIp 0x7F000001)) = (0x7F000001, true) :=
  netParseIp_spec.1 0x7F000001 (by decide)

end BananaOS.Net
