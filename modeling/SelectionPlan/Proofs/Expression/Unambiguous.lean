import SelectionPlan.Proofs.Expression.Grammar

/-!
# The grammar is unambiguous

A derivation is determined by its tokens.  The reason is that a phrase ends where no operator as
tight as its own follows, and no parenthesis; so of two derivations of some tokens the first
operands are the same, and then what follows them.
-/

namespace SelectionPlan

/-! ### Where phrases end -/

def BinaryOperator.level : BinaryOperator → Level
  | .or => .disjunction
  | .and => .conjunction
  | .lt | .le | .gt | .ge | .eq | .ne => .comparison
  | .add | .sub => .sum
  | .mul | .div => .product

def Level.rank : Level → Nat
  | .disjunction => 0
  | .conjunction => 1
  | .comparison => 2
  | .sum => 3
  | .product => 4
  | .signed => 5
  | .atom => 6

theorem Level.joins_iff {level : Level} {op : BinaryOperator} :
    level.joins op = true ↔ op.level = level := by
  cases level <;> cases op <;> decide

theorem Level.isBinary_of_joins {level : Level} {op : BinaryOperator}
    (h : level.joins op = true) : level.isBinary = true := by
  cases level with
  | signed | atom => cases op <;> cases h
  | _ => rfl

theorem Level.rank_operand {level : Level} (h : level.isBinary = true) :
    level.operand.rank = level.rank + 1 := by
  cases level with
  | signed | atom => cases h
  | _ => rfl

theorem Level.rank_lt_of_isBinary {level : Level} (h : level.isBinary = true) :
    level.rank < 5 := by
  cases level with
  | signed | atom => cases h
  | _ => decide

/-- Tokens that no phrase of a level goes on into: they start with no parenthesis and no operator
that is as tight. -/
def Stops (level : Level) : List Token → Prop
  | .openParen :: _ => False
  | .binary op :: _ => op.level.rank < level.rank
  | _ => True

theorem Stops.mono {level level' : Level} {rest : List Token} (h : Stops level rest)
    (hle : level.rank ≤ level'.rank) : Stops level' rest := by
  cases rest with
  | nil => trivial
  | cons t rest =>
      cases t with
      | binary op => exact Nat.lt_of_lt_of_le h hle
      | openParen => exact h
      | _ => trivial

theorem Stops.operand {level : Level} (hlevel : level.isBinary = true) {rest : List Token}
    (h : Stops level rest) : Stops level.operand rest :=
  h.mono (by rw [Level.rank_operand hlevel]; exact Nat.le_succ _)

theorem Continuation.stops {level : Level} (hlevel : level.isBinary = true)
    (c : Continuation level) {rest : List Token} (h : Stops level rest) :
    Stops level.operand (c.tokens ++ rest) := by
  have hop (op : BinaryOperator) (hjoins : level.joins op = true) (after : List Token) :
      Stops level.operand (.binary op :: after) := by
    change op.level.rank < level.operand.rank
    rw [Level.joins_iff.mp hjoins, Level.rank_operand hlevel]
    exact Nat.lt_succ_self _
  cases c with
  | stop => exact h.operand hlevel
  | once op hjoins _ _ => exact hop op hjoins _
  | more op hjoins _ _ _ => exact hop op hjoins _

theorem Stops.not_joins {level : Level} {op : BinaryOperator} {rest : List Token}
    (h : Stops level (.binary op :: rest)) : level.joins op = false := by
  rw [Bool.eq_false_iff]
  intro hjoins
  have hrank : op.level.rank < level.rank := h
  rw [Level.joins_iff.mp hjoins] at hrank
  exact Nat.lt_irrefl _ hrank

theorem Stops.not_opens {level : Level} {rest : List Token} (h : Stops level rest) :
    ¬ Opens rest := by
  intro hopens
  unfold Opens at hopens
  split at hopens
  · exact h
  · exact hopens

/-! ### Derivations of the same tokens -/

theorem Derivation.atom_ne_sign (d : Derivation .atom) (s : Sign) (rest rest' : List Token) :
    d.tokens ++ rest ≠ s.token :: rest' := by
  intro h
  cases d with
  | joined hlevel _ _ => cases hlevel
  | _ => cases s <;> cases h

theorem Sign.token_injective {s s' : Sign} (h : s.token = s'.token) : s = s' := by
  cases s <;> cases s' <;> first | rfl | cases h

/-- No other derivation has the tokens of this one, whatever comes after them. -/
def Derivation.Determined {level : Level} (d : Derivation level) : Prop :=
  ∀ (d' : Derivation level) (rest rest' : List Token), d.tokens ++ rest = d'.tokens ++ rest' →
    Stops level rest → Stops level rest' → d = d' ∧ rest = rest'

def Continuation.Determined {level : Level} (c : Continuation level) : Prop :=
  ∀ (c' : Continuation level) (rest rest' : List Token), c.tokens ++ rest = c'.tokens ++ rest' →
    Stops level rest → Stops level rest' → c = c' ∧ rest = rest'

namespace Derivation.Determined

theorem joined {level : Level} (hlevel : level.isBinary = true) {first : Derivation level.operand}
    {c : Continuation level} (hfirst : first.Determined) (hc : c.Determined) :
    (Derivation.joined hlevel first c).Determined := by
  intro d' rest rest' h hrest hrest'
  cases d' with
  | joined hlevel' first' c' =>
      simp only [tokens, List.append_assoc] at h
      obtain ⟨rfl, hafter⟩ := hfirst first' _ _ h (c.stops hlevel hrest) (c'.stops hlevel hrest')
      obtain ⟨rfl, rfl⟩ := hc c' rest rest' hafter hrest hrest'
      exact ⟨rfl, rfl⟩
  | _ => cases hlevel

theorem sign (s : Sign) {operand : Derivation .signed} (hoperand : operand.Determined) :
    (Derivation.sign s operand).Determined := by
  intro d' rest rest' h hrest hrest'
  cases d' with
  | joined hlevel _ _ => cases hlevel
  | sign s' operand' =>
      obtain ⟨hs, hafter⟩ := List.cons.inj h
      cases Sign.token_injective hs
      obtain ⟨rfl, rfl⟩ := hoperand operand' rest rest' hafter hrest hrest'
      exact ⟨rfl, rfl⟩
  | atom phrase' => exact (phrase'.atom_ne_sign s _ _ h.symm).elim

theorem atom {phrase : Derivation .atom} (hphrase : phrase.Determined) :
    (Derivation.atom phrase).Determined := by
  intro d' rest rest' h hrest hrest'
  cases d' with
  | joined hlevel _ _ => cases hlevel
  | sign s' operand' => exact (phrase.atom_ne_sign s' _ _ h).elim
  | atom phrase' =>
      obtain ⟨rfl, rfl⟩ := hphrase phrase' rest rest' h (hrest.mono (Nat.le_succ _))
        (hrest'.mono (Nat.le_succ _))
      exact ⟨rfl, rfl⟩

theorem number (value : Float) : (Derivation.number value).Determined := by
  intro d' rest rest' h _ _
  cases d' with
  | joined hlevel _ _ => cases hlevel
  | number value' =>
      cases h
      exact ⟨rfl, rfl⟩
  | _ => cases h

theorem identifier (name : String) : (Derivation.identifier name).Determined := by
  intro d' rest rest' h hrest _
  cases d' with
  | joined hlevel _ _ => cases hlevel
  | identifier name' =>
      cases h
      exact ⟨rfl, rfl⟩
  -- What follows would be the parenthesis of a call.
  | call | call₂ =>
      cases h
      exact hrest.elim
  | _ => cases h

theorem group {inner : Derivation .disjunction} (hinner : inner.Determined) :
    (Derivation.group inner).Determined := by
  intro d' rest rest' h _ _
  cases d' with
  | joined hlevel _ _ => cases hlevel
  | group inner' =>
      simp only [tokens, List.cons_append, List.append_assoc, List.nil_append, List.cons.injEq,
        true_and] at h
      obtain ⟨rfl, hafter⟩ := hinner inner' _ _ h trivial trivial
      exact ⟨rfl, (List.cons.inj hafter).2⟩
  | _ => cases h

theorem call {name : String} {f : UnaryPrimitive}
    (named : Primitive.ofName? name = some (.unary f)) {argument : Derivation .disjunction}
    (hargument : argument.Determined) : (Derivation.call name f named argument).Determined := by
  intro d' rest rest' h _ hrest'
  cases d' with
  | joined hlevel _ _ => cases hlevel
  | identifier name' =>
      cases h
      exact hrest'.elim
  | call name' f' named' argument' =>
      simp only [tokens, List.cons_append, List.append_assoc, List.nil_append, List.cons.injEq,
        Token.identifier.injEq, true_and] at h
      obtain ⟨rfl, h⟩ := h
      cases named.symm.trans named'
      obtain ⟨rfl, hafter⟩ := hargument argument' _ _ h trivial trivial
      exact ⟨rfl, (List.cons.inj hafter).2⟩
  | call₂ name' f' named' first' second' =>
      cases (List.cons.inj h).1
      cases named.symm.trans named'
  | _ => cases h

theorem call₂ {name : String} {f : BinaryPrimitive}
    (named : Primitive.ofName? name = some (.binary f)) {first second : Derivation .disjunction}
    (hfirst : first.Determined) (hsecond : second.Determined) :
    (Derivation.call₂ name f named first second).Determined := by
  intro d' rest rest' h _ hrest'
  cases d' with
  | joined hlevel _ _ => cases hlevel
  | identifier name' =>
      cases h
      exact hrest'.elim
  | call name' f' named' argument' =>
      cases (List.cons.inj h).1
      cases named.symm.trans named'
  | call₂ name' f' named' first' second' =>
      simp only [tokens, List.cons_append, List.append_assoc, List.nil_append, List.cons.injEq,
        Token.identifier.injEq, true_and] at h
      obtain ⟨rfl, h⟩ := h
      cases named.symm.trans named'
      obtain ⟨rfl, hcomma⟩ := hfirst first' _ _ h trivial trivial
      obtain ⟨rfl, hafter⟩ := hsecond second' _ _ (List.cons.inj hcomma).2 trivial trivial
      exact ⟨rfl, (List.cons.inj hafter).2⟩
  | _ => cases h

end Derivation.Determined

namespace Continuation.Determined

theorem stop (level : Level) : (@Continuation.stop level).Determined := by
  intro c' rest rest' h hrest _
  cases c' with
  | stop => exact ⟨rfl, h⟩
  | once op joins _ _ | more op joins _ _ _ =>
      subst h
      rw [hrest.not_joins] at joins
      cases joins

theorem once {level : Level} {op : BinaryOperator} (joins : level.joins op = true)
    (single : level.chains = false) {operand : Derivation level.operand}
    (hoperand : operand.Determined) :
    (Continuation.once op joins single operand).Determined := by
  intro c' rest rest' h hrest hrest'
  cases c' with
  | stop =>
      subst h
      rw [hrest'.not_joins] at joins
      cases joins
  | once op' joins' single' operand' =>
      have hlevel := Level.isBinary_of_joins joins
      simp only [tokens, List.cons_append, List.cons.injEq, Token.binary.injEq] at h
      obtain ⟨rfl, h⟩ := h
      obtain ⟨rfl, rfl⟩ := hoperand operand' rest rest' h (hrest.operand hlevel)
        (hrest'.operand hlevel)
      exact ⟨rfl, rfl⟩
  | more _ _ chains _ _ =>
      rw [single] at chains
      cases chains

theorem more {level : Level} {op : BinaryOperator} (joins : level.joins op = true)
    (chains : level.chains = true) {operand : Derivation level.operand} {c : Continuation level}
    (hoperand : operand.Determined) (hc : c.Determined) :
    (Continuation.more op joins chains operand c).Determined := by
  intro c' rest rest' h hrest hrest'
  cases c' with
  | stop =>
      subst h
      rw [hrest'.not_joins] at joins
      cases joins
  | once _ _ single _ =>
      rw [single] at chains
      cases chains
  | more op' joins' chains' operand' c' =>
      have hlevel := Level.isBinary_of_joins joins
      simp only [tokens, List.cons_append, List.append_assoc, List.cons.injEq,
        Token.binary.injEq] at h
      obtain ⟨rfl, h⟩ := h
      obtain ⟨rfl, hafter⟩ := hoperand operand' _ _ h (c.stops hlevel hrest)
        (c'.stops hlevel hrest')
      obtain ⟨rfl, rfl⟩ := hc c' rest rest' hafter hrest hrest'
      exact ⟨rfl, rfl⟩

end Continuation.Determined

mutual

theorem Derivation.determined {level : Level} : (d : Derivation level) → d.Determined
  | .joined hlevel first c => .joined hlevel first.determined c.determined
  | .sign s operand => .sign s operand.determined
  | .atom phrase => .atom phrase.determined
  | .number value => .number value
  | .identifier name => .identifier name
  | .group inner => .group inner.determined
  | .call _ _ named argument => .call named argument.determined
  | .call₂ _ _ named first second => .call₂ named first.determined second.determined

theorem Continuation.determined {level : Level} : (c : Continuation level) → c.Determined
  | .stop => .stop level
  | .once _ joins single operand => .once joins single operand.determined
  | .more _ joins chains operand c => .more joins chains operand.determined c.determined

end

/-- A derivation is determined by its tokens. -/
theorem Derivation.eq_of_tokens {level : Level} {d d' : Derivation level}
    (h : d.tokens = d'.tokens) : d = d' := by
  have hnil : Stops level [] := trivial
  refine (d.determined d' [] [] ?_ hnil hnil).1
  rw [h]

end SelectionPlan
