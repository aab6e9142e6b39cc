import Mathlib.Data.List.TakeWhile

/-!
# Texts in bytes

A text can be cut at the bytes where its characters start and where it ends.  ASCII characters are
one byte each, and no other character has an ASCII byte first, so a test that only ASCII characters
pass says the same of a byte and of the character that starts there.
-/

namespace SelectionPlan

/-! ### Cuts -/

def utf8 (cs : List Char) : List UInt8 := cs.flatMap String.utf8EncodeChar

@[simp] theorem utf8_nil : utf8 [] = [] := rfl

@[simp] theorem utf8_cons (c : Char) (cs : List Char) :
    utf8 (c :: cs) = String.utf8EncodeChar c ++ utf8 cs := rfl

@[simp] theorem utf8_append (cs ds : List Char) : utf8 (cs ++ ds) = utf8 cs ++ utf8 ds :=
  List.flatMap_append

theorem length_le_utf8 (cs : List Char) : cs.length ≤ (utf8 cs).length := by
  induction cs with
  | nil => exact Nat.le_refl 0
  | cons c cs ih =>
      have hpos := c.utf8Size_pos
      rw [utf8_cons, List.length_append, String.length_utf8EncodeChar, List.length_cons]
      omega

/-- The text from a byte on, if a character starts there or the text ends. -/
def dropBytes? : Nat → List Char → Option (List Char)
  | 0, cs => some cs
  | _ + 1, [] => none
  | n + 1, c :: cs => if c.utf8Size ≤ n + 1 then dropBytes? (n + 1 - c.utf8Size) cs else none

def takeBytes? : Nat → List Char → Option (List Char)
  | 0, _ => some []
  | _ + 1, [] => none
  | n + 1, c :: cs =>
    if c.utf8Size ≤ n + 1 then (takeBytes? (n + 1 - c.utf8Size) cs).map (c :: ·) else none

def slice? (text : List Char) (start stop : Nat) : Option (List Char) :=
  if start ≤ stop then dropBytes? start text >>= takeBytes? (stop - start) else none

theorem dropBytes?_eq_some {n : Nat} {cs rest : List Char} :
    dropBytes? n cs = some rest ↔ ∃ before, cs = before ++ rest ∧ (utf8 before).length = n := by
  constructor
  · intro h
    induction cs generalizing n with
    | nil =>
        cases n with
        | zero => exact ⟨[], by simpa [dropBytes?] using h, rfl⟩
        | succ n => cases h
    | cons c cs ih =>
        cases n with
        | zero => exact ⟨[], by simpa [dropBytes?] using h, rfl⟩
        | succ n =>
            rw [dropBytes?] at h
            split at h
            · obtain ⟨before, rfl, hlength⟩ := ih h
              refine ⟨c :: before, rfl, ?_⟩
              rw [utf8_cons, List.length_append, String.length_utf8EncodeChar, hlength]
              omega
            · cases h
  · rintro ⟨before, rfl, rfl⟩
    induction before with
    | nil =>
        rw [List.nil_append]
        cases rest <;> rfl
    | cons c before ih =>
        have hpos := c.utf8Size_pos
        rw [utf8_cons, List.length_append, String.length_utf8EncodeChar, List.cons_append]
        obtain ⟨n, hn⟩ : ∃ n, c.utf8Size + (utf8 before).length = n + 1 :=
          Nat.exists_eq_add_one_of_ne_zero (by omega)
        rw [hn, dropBytes?, if_pos (by omega), ← hn, Nat.add_sub_cancel_left, ih]

theorem takeBytes?_eq_some {n : Nat} {cs s : List Char} :
    takeBytes? n cs = some s ↔ ∃ after, cs = s ++ after ∧ (utf8 s).length = n := by
  constructor
  · intro h
    induction cs generalizing n s with
    | nil =>
        cases n with
        | zero =>
            cases h
            exact ⟨[], rfl, rfl⟩
        | succ n => cases h
    | cons c cs ih =>
        cases n with
        | zero =>
            cases h
            exact ⟨c :: cs, rfl, rfl⟩
        | succ n =>
            rw [takeBytes?] at h
            split at h
            · obtain ⟨s, hs, rfl⟩ := Option.map_eq_some_iff.mp h
              obtain ⟨after, rfl, hlength⟩ := ih hs
              refine ⟨after, rfl, ?_⟩
              rw [utf8_cons, List.length_append, String.length_utf8EncodeChar, hlength]
              omega
            · cases h
  · rintro ⟨after, rfl, rfl⟩
    induction s with
    | nil =>
        rw [List.nil_append]
        cases after <;> rfl
    | cons c s ih =>
        have hpos := c.utf8Size_pos
        rw [utf8_cons, List.length_append, String.length_utf8EncodeChar, List.cons_append]
        obtain ⟨n, hn⟩ : ∃ n, c.utf8Size + (utf8 s).length = n + 1 :=
          Nat.exists_eq_add_one_of_ne_zero (by omega)
        rw [hn, takeBytes?, if_pos (by omega), ← hn, Nat.add_sub_cancel_left, ih, Option.map_some]

/-- A text can be cut at the boundaries of its characters, and nowhere else. -/
theorem slice?_eq_some {text s : List Char} {start stop : Nat} :
    slice? text start stop = some s ↔ ∃ before after, text = before ++ s ++ after ∧
      (utf8 before).length = start ∧ start + (utf8 s).length = stop := by
  rw [slice?]
  constructor
  · intro h
    split at h
    · rename_i hle
      obtain ⟨rest, hrest, hs⟩ := Option.bind_eq_some_iff.mp h
      obtain ⟨before, rfl, hbefore⟩ := dropBytes?_eq_some.mp hrest
      obtain ⟨after, rfl, hlength⟩ := takeBytes?_eq_some.mp hs
      exact ⟨before, after, (List.append_assoc ..).symm, hbefore, by omega⟩
    · cases h
  · rintro ⟨before, after, rfl, rfl, rfl⟩
    rw [if_pos (Nat.le_add_right _ _), Nat.add_sub_cancel_left]
    refine Option.bind_eq_some_iff.mpr ⟨s ++ after, ?_, takeBytes?_eq_some.mpr ⟨after, rfl, rfl⟩⟩
    exact dropBytes?_eq_some.mpr ⟨before, List.append_assoc .., rfl⟩

/-! ### ASCII -/

def Ascii (cs : List Char) : Prop := ∀ c ∈ cs, c.val ≤ 127

theorem Ascii.append {cs ds : List Char} (hcs : Ascii cs) (hds : Ascii ds) : Ascii (cs ++ ds) := by
  intro c hc
  rcases List.mem_append.mp hc with hc | hc
  · exact hcs c hc
  · exact hds c hc

theorem Ascii.length_utf8 {cs : List Char} (h : Ascii cs) : (utf8 cs).length = cs.length := by
  induction cs with
  | nil => rfl
  | cons c cs ih =>
      have hone : c.utf8Size = 1 := Char.utf8Size_eq_one_iff.mpr (h c List.mem_cons_self)
      rw [utf8_cons, List.length_append, String.length_utf8EncodeChar, hone,
        ih fun d hd => h d (List.mem_cons_of_mem c hd), List.length_cons, Nat.add_comm]

theorem slice?_ascii {before s after : List Char} (hbefore : Ascii before) (hs : Ascii s) :
    slice? (before ++ s ++ after) before.length (before.length + s.length) = some s :=
  slice?_eq_some.mpr ⟨before, after, rfl, hbefore.length_utf8, by rw [hs.length_utf8]⟩

theorem slice?_of_ascii {text : List Char} (h : Ascii text) {start stop : Nat}
    (hle : start ≤ stop) (hstop : stop ≤ text.length) :
    slice? text start stop = some ((text.drop start).take (stop - start)) := by
  have hbefore : Ascii (text.take start) := fun c hc => h c (List.mem_of_mem_take hc)
  have hkept : Ascii ((text.drop start).take (stop - start)) := fun c hc =>
    h c (List.mem_of_mem_drop (List.mem_of_mem_take hc))
  refine slice?_eq_some.mpr ⟨text.take start, (text.drop start).drop (stop - start), ?_, ?_, ?_⟩
  · rw [List.append_assoc, List.take_append_drop, List.take_append_drop]
  · rw [hbefore.length_utf8, List.length_take]
    omega
  · rw [hkept.length_utf8, List.length_take, List.length_drop]
    omega

theorem dropBytes?_of_ascii {text : List Char} (h : Ascii text) {n : Nat} (hn : n ≤ text.length) :
    dropBytes? n text = some (text.drop n) := by
  have hbefore : Ascii (text.take n) := fun c hc => h c (List.mem_of_mem_take hc)
  refine dropBytes?_eq_some.mpr ⟨text.take n, (List.take_append_drop n text).symm, ?_⟩
  rw [hbefore.length_utf8, List.length_take, Nat.min_eq_left hn]

/-- A test of characters as it is made of bytes: the byte is the code of an ASCII character that
passes. -/
def passes (p : Char → Bool) (b : UInt8) : Bool := b < 128 && p (Char.ofUInt8 b)

def OfAscii (p : Char → Bool) : Prop := ∀ c, p c = true → c.val ≤ 127

def holds (p : Char → Bool) (bytes : List UInt8) (i : Nat) : Bool := bytes[i]?.any (passes p)

def past (p : Char → Bool) (bytes : List UInt8) (i : Nat) : Nat :=
  i + ((bytes.drop i).takeWhile (passes p)).length

theorem utf8EncodeChar_cases (c : Char) :
    (c.val ≤ 127 ∧ String.utf8EncodeChar c = [c.toUInt8]) ∨
      (¬ c.val ≤ 127 ∧ ∃ b bs, String.utf8EncodeChar c = b :: bs ∧ ¬ b < 128) := by
  by_cases hascii : c.val ≤ 127
  · exact .inl ⟨hascii, String.utf8EncodeChar_eq_singleton (Char.utf8Size_eq_one_iff.mpr hascii)⟩
  · have hval : ¬ c.val.toNat ≤ 127 := hascii
    have hlarge {n : Nat} (hn : 128 ≤ n) (hlt : n < 256) : ¬ UInt8.ofNat n < 128 := by
      rw [UInt8.lt_iff_toNat_lt, UInt8.toNat_ofNat', Nat.mod_eq_of_lt hlt]
      exact Nat.not_lt.mpr hn
    refine .inr ⟨hascii, ?_⟩
    simp only [String.utf8EncodeChar, hval, if_false]
    split
    · exact ⟨_, _, rfl, hlarge (by omega) (by omega)⟩
    · split
      · exact ⟨_, _, rfl, hlarge (by omega) (by omega)⟩
      · exact ⟨_, _, rfl, hlarge (by omega) (by omega)⟩

theorem ofUInt8_toUInt8 {c : Char} (h : c.val ≤ 127) : Char.ofUInt8 c.toUInt8 = c := by
  have hval : c.val.toNat ≤ 127 := h
  apply Char.ext
  apply UInt32.toNat_inj.mp
  change (c.val.toUInt8).toUInt32.toNat = _
  rw [UInt8.toNat_toUInt32, UInt32.toNat_toUInt8, Nat.mod_eq_of_lt (by omega)]

section tests

variable {p : Char → Bool} {before : List Char}

/-- A byte is looked at as the character that starts there. -/
theorem passes_head (hp : OfAscii p) (c : Char) :
    (String.utf8EncodeChar c).head?.any (passes p) = p c := by
  rcases utf8EncodeChar_cases c with ⟨hascii, hbytes⟩ | ⟨hascii, b, bs, hbytes, hb⟩
  · have hlt : c.toUInt8 < 128 := by
      have hval : c.val.toNat ≤ 127 := hascii
      rw [UInt8.lt_iff_toNat_lt]
      change c.val.toUInt8.toNat < 128
      rw [UInt32.toNat_toUInt8]
      omega
    simp [hbytes, passes, hlt, ofUInt8_toUInt8 hascii]
  · have hfails : p c = false := by
      rw [Bool.eq_false_iff]
      exact fun hc => hascii (hp c hc)
    simp [hbytes, passes, hb, hfails]

theorem head?_utf8 (cs : List Char) (test : UInt8 → Bool) :
    (utf8 cs).head?.any test = cs.head?.any fun c => (String.utf8EncodeChar c).head?.any test := by
  cases cs with
  | nil => rfl
  | cons c cs =>
      rcases utf8EncodeChar_cases c with ⟨-, hbytes⟩ | ⟨-, b, bs, hbytes, -⟩ <;> simp [hbytes]

theorem takeWhile_utf8 (hp : OfAscii p) (cs : List Char) :
    ((utf8 cs).takeWhile (passes p)).length = (cs.takeWhile p).length := by
  induction cs with
  | nil => rfl
  | cons c cs ih =>
      have hhead := passes_head hp c
      rcases utf8EncodeChar_cases c with ⟨-, hbytes⟩ | ⟨hascii, b, bs, hbytes, -⟩
      · simp only [hbytes, List.head?_cons, Option.any_some] at hhead
        simp only [utf8_cons, hbytes, List.cons_append, List.nil_append, List.takeWhile_cons, hhead]
        split
        · rw [List.length_cons, List.length_cons, ih]
        · rfl
      · have hfails : p c = false := by
          rw [Bool.eq_false_iff]
          exact fun hc => hascii (hp c hc)
        simp only [hbytes, List.head?_cons, Option.any_some, hfails] at hhead
        simp [hbytes, hhead, hfails]

theorem holds_eq (hbefore : Ascii before) (hp : OfAscii p) (rest : List Char) :
    holds p (utf8 (before ++ rest)) before.length = rest.head?.any p := by
  rw [holds, utf8_append, List.getElem?_append_right (by rw [hbefore.length_utf8]),
    hbefore.length_utf8, Nat.sub_self, ← List.head?_eq_getElem?, head?_utf8]
  simp only [passes_head hp]

theorem past_eq (hbefore : Ascii before) (hp : OfAscii p) (rest : List Char) :
    past p (utf8 (before ++ rest)) before.length =
      before.length + (rest.takeWhile p).length := by
  have hdrop : (utf8 (before ++ rest)).drop before.length = utf8 rest := by
    rw [utf8_append, ← hbefore.length_utf8, List.drop_left]
  rw [past, hdrop, takeWhile_utf8 hp]

end tests

end SelectionPlan
