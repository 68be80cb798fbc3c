import SciCalc.Proofs.Grammar.Derivation

namespace SciCalc

def Node.ofExpr (e : Expr) : Node := ⟨e, e.height⟩

theorem Node.above_eq {below : Nat} {e : Expr} (h : e.height = below + 1) :
    Node.above below e =
      if e.height ≤ maxHeight then .ok (Node.ofExpr e) else .error (.tooDeep maxHeight) := by
  rw [Node.above, Node.ofExpr, h]
  rfl

namespace Phrase

theorem chain_nil (op? : Token → Option BinaryOp) (operand : Phrase) (left : Node) :
    chain op? operand left [] = .ok (left, []) := by
  rw [chain]

theorem chain_of_none {op? : Token → Option BinaryOp} {t : Token} (h : op? t = none)
    (operand : Phrase) (left : Node) (ts : List Token) :
    chain op? operand left (t :: ts) = .ok (left, t :: ts) := by
  rw [chain, h]

theorem chain_of_some {op? : Token → Option BinaryOp} {t : Token} {op : BinaryOp}
    (h : op? t = some op) (operand : Phrase) (left : Node) (ts : List Token) :
    chain op? operand left (t :: ts) = (do
      let (right, rest) ← operand ts
      let whole ← Node.binary op left right
      chain op? operand whole rest) := by
  rw [chain, h]
  simp only [bind, Except.bind]
  cases operand ts with
  | error f => rfl
  | ok found =>
    obtain ⟨right, rest⟩ := found
    simp only
    split <;> rename_i hn <;> rw [hn]

theorem signed_minus (depth : Nat) (ts : List Token) :
    signed (depth + 1) (.minus :: ts) = (do
      let (a, rest) ← signed depth ts
      return (← a.neg, rest)) := rfl

theorem signed_of_ne {t : Token} (hm : t ≠ .minus) (hp : t ≠ .plus) (depth : Nat)
    (ts : List Token) :
    signed (depth + 1) (t :: ts) = power (signed depth) (t :: ts) := by
  cases t <;> first | rfl | exact absurd rfl hm | exact absurd rfl hp

end Phrase

namespace Grammar

/-- The reader of a phrase in which at most `depth` signed phrases stand inside each other. -/
def Symbol.read (depth : Nat) : Symbol → Phrase
  | chain .sum => Phrase.sum (Phrase.signed depth)
  | chain .product => Phrase.product (Phrase.signed depth)
  | rest .sum a => Phrase.chain Phrase.sumOp? (Phrase.product (Phrase.signed depth)) (Node.ofExpr a)
  | rest .product a => Phrase.chain Phrase.productOp? (Phrase.signed depth) (Node.ofExpr a)
  | signed => Phrase.signed depth
  | power => Phrase.power (Phrase.signed depth)
  | factorial => Phrase.factorial (Phrase.signed depth)
  | primary => Phrase.primary (Phrase.signed depth)

theorem read_chain (depth : Nat) (l : Layer) (ts : List Token) :
    (Symbol.chain l).read depth ts = (do
      let (left, rest) ← l.operand.read depth ts
      Phrase.chain l.op? (l.operand.read depth) left rest) := by
  cases l <;> rfl

theorem read_rest (depth : Nat) (l : Layer) (a : Expr) (ts : List Token) :
    (Symbol.rest l a).read depth ts =
      Phrase.chain l.op? (l.operand.read depth) (Node.ofExpr a) ts := by
  cases l <;> rfl

theorem bangs_of_stops {r : List Token} (h : Stops .factorial r) (a : Node) :
    Phrase.bangs a r = .ok (a, r) := by
  cases r with
  | nil => rfl
  | cons t r =>
    have := stops_cons.1 h
    cases t <;> first | rfl | exact absurd this (by decide)

/-- What reading a phrase with the tree `e` by a derivation of depth `d` comes to: the tree and the
tokens behind it, or the fault of a limit that is broken. -/
def Meets (depth d : Nat) (e : Expr) (r : List Token) (x : Except Fault (Node × List Token)) :
    Prop :=
  (d ≤ depth ∧ e.height ≤ maxHeight ∧ x = .ok (Node.ofExpr e, r)) ∨
  (depth < d ∧ x = .error (.tooDeep maxDepth)) ∨
  (maxHeight < e.height ∧ x = .error (.tooDeep maxHeight))

theorem Meets.bind {depth d d' : Nat} {a e : Expr} {r r' : List Token}
    {x : Except Fault (Node × List Token)}
    {k : Node × List Token → Except Fault (Node × List Token)} (h : Meets depth d a r x)
    (hd : d ≤ d') (hh : a.height ≤ e.height)
    (hk : d ≤ depth → a.height ≤ maxHeight → Meets depth d' e r' (k (Node.ofExpr a, r))) :
    Meets depth d' e r' (x >>= k) := by
  obtain ⟨hd', ha, rfl⟩ | ⟨hd', rfl⟩ | ⟨ha, rfl⟩ := h
  · exact hk hd' ha
  · exact .inr (.inl ⟨by omega, rfl⟩)
  · exact .inr (.inr ⟨by omega, rfl⟩)

/-- The last step of a phrase puts a root on trees that were read. -/
theorem Meets.root {depth d below : Nat} {e : Expr} {r : List Token} (hd : d ≤ depth)
    (he : e.height = below + 1) :
    Meets depth d e r (do return (← Node.above below e, r)) := by
  rw [Node.above_eq he]
  split
  · exact .inl ⟨hd, ‹_›, rfl⟩
  · exact .inr (.inr ⟨by omega, rfl⟩)

theorem Meets.max_left {depth d d' : Nat} {e : Expr} {r : List Token}
    {x : Except Fault (Node × List Token)} (h : Meets depth d' e r x) (hd : d ≤ depth) :
    Meets depth (max d d') e r x := by
  obtain ⟨hd', he, hx⟩ | ⟨hd', hx⟩ | h := h
  · exact .inl ⟨Nat.max_le.2 ⟨hd, hd'⟩, he, hx⟩
  · exact .inr (.inl ⟨by omega, hx⟩)
  · exact .inr (.inr h)

theorem Meets.succ {depth d : Nat} {e : Expr} {r : List Token}
    {x : Except Fault (Node × List Token)} (h : Meets depth d e r x) :
    Meets (depth + 1) (d + 1) e r x := by
  obtain ⟨hd, he, hx⟩ | ⟨hd, hx⟩ | h := h
  · exact .inl ⟨by omega, he, hx⟩
  · exact .inr (.inl ⟨by omega, hx⟩)
  · exact .inr (.inr h)

theorem height_le_of_rest {l : Layer} {a e : Expr} {v : List Token} {d : Nat}
    (h : Derives (.rest l a) v e d) : a.height ≤ e.height := by
  generalize hs : Symbol.rest l a = s at h
  induction h generalizing a with
  | done =>
    cases hs
    exact Nat.le_refl _
  | more _ _ _ _ ih =>
    cases hs
    have := ih rfl
    simp only [Expr.height] at this
    omega
  | _ => cases hs

theorem height_iterate_factorial (n : Nat) (a : Expr) :
    (Expr.factorial^[n] a).height = a.height + n := by
  induction n with
  | zero => rfl
  | succ n ih =>
    rw [Function.iterate_succ_apply', Expr.height, ih]
    omega

theorem meets_bangs {depth d : Nat} {a : Expr} {r : List Token} (n : Nat) (hd : d ≤ depth)
    (ha : a.height ≤ maxHeight) (hr : Stops .factorial r) :
    Meets depth d (Expr.factorial^[n] a) r
      (Phrase.bangs (Node.ofExpr a) (List.replicate n .bang ++ r)) := by
  induction n generalizing a with
  | zero => exact .inl ⟨hd, ha, bangs_of_stops hr _⟩
  | succ n ih =>
    rw [Function.iterate_succ_apply]
    change Meets depth d _ r (Node.above a.height (.factorial a) >>= fun b =>
      Phrase.bangs b (List.replicate n .bang ++ r))
    rw [Node.above_eq (e := .factorial a) rfl]
    split
    · exact ih ‹_›
    · refine .inr (.inr ⟨?_, rfl⟩)
      rw [height_iterate_factorial]
      omega

/-- The tree that a chain starts from is within the limit of the height. -/
def Symbol.Fits : Symbol → Prop
  | rest _ a => a.height ≤ maxHeight
  | _ => True

theorem operand_fits (l : Layer) : l.operand.Fits := by
  cases l <;> trivial

/-- A phrase in front of tokens that end it is read, or refused for a limit that it breaks. -/
theorem Derives.meets {s : Symbol} {u : List Token} {e : Expr} {d : Nat} (h : Derives s u e d)
    (depth : Nat) {r : List Token} (hs : s.Fits) (hr : Stops s r) :
    Meets depth d e r (s.read depth (u ++ r)) := by
  induction h generalizing depth r with
  | chain _ hv ihu ihv =>
    rw [read_chain, List.append_assoc]
    refine (ihu depth (operand_fits _) (hv.stops_operand hr)).bind (Nat.le_max_left _ _)
      (height_le_of_rest hv) fun hd ha => ?_
    simp only
    rw [← read_rest]
    exact (ihv depth ha hr).max_left hd
  | done =>
    rename_i l a
    refine .inl ⟨Nat.zero_le _, hs, ?_⟩
    rw [read_rest, List.nil_append]
    cases r with
    | nil => exact Phrase.chain_nil _ _ _
    | cons t r =>
      refine Phrase.chain_of_none ?_ _ _ _
      cases ho : l.op? t with
      | none => rfl
      | some op =>
        have hlt := stops_cons.1 hr
        rw [strength_of_op? ho] at hlt
        exact absurd hlt (Nat.lt_irrefl _)
  | more ho _ hv ihu ihv =>
    rename_i l t op u v a b e d d' _
    have hle := height_le_of_rest hv
    rw [read_rest, List.cons_append, List.append_assoc, Phrase.chain_of_some ho]
    refine (ihu depth (operand_fits _) (hv.stops_operand hr)).bind (Nat.le_max_left _ _)
      (by simp only [Expr.height] at hle; omega) fun hd hb => ?_
    change Meets depth _ e r (Node.above (max a.height b.height) (.binary op a b) >>= fun whole =>
      Phrase.chain l.op? (l.operand.read depth) whole (v ++ r))
    rw [Node.above_eq (e := .binary op a b) rfl]
    split
    · rename_i hab
      change Meets depth _ e r (Phrase.chain l.op? (l.operand.read depth) _ _)
      rw [← read_rest]
      exact (ihv depth hab hr).max_left hd
    · exact .inr (.inr ⟨by omega, rfl⟩)
  | negative _ ih =>
    cases depth with
    | zero => exact .inr (.inl ⟨Nat.zero_lt_succ _, rfl⟩)
    | succ depth =>
      exact (ih depth trivial hr).succ.bind (Nat.le_refl _) (Nat.le_succ _)
        fun hd _ => Meets.root hd rfl
  | positive _ ih =>
    cases depth with
    | zero => exact .inr (.inl ⟨Nat.zero_lt_succ _, rfl⟩)
    | succ depth => exact (ih depth trivial hr).succ
  | unsigned hp ih =>
    cases depth with
    | zero => exact .inr (.inl ⟨Nat.zero_lt_succ _, rfl⟩)
    | succ depth =>
      have h := (ih depth trivial hr).succ
      obtain ⟨t, w, hu, ht⟩ := hp.head_unsigned (.inl rfl) r
      rw [hu] at h ⊢
      have hm : t ≠ .minus := by
        intro hm
        rw [hm] at ht
        cases ht
      have hp : t ≠ .plus := by
        intro hp
        rw [hp] at ht
        cases ht
      change Meets _ _ _ _ (Phrase.signed (depth + 1) (t :: w))
      rw [Phrase.signed_of_ne hm hp]
      exact h
  | base _ ih =>
    refine (ih depth trivial (hr.mono (by decide))).bind (Nat.le_refl _) (Nat.le_refl _)
      fun hd ha =>
      .inl ⟨hd, ha, ?_⟩
    cases r with
    | nil => rfl
    | cons t r =>
      have hlt := stops_cons.1 hr
      cases t <;> first | rfl | exact absurd hlt (by decide)
  | raised _ _ ihu ihv =>
    rw [List.append_assoc]
    refine (ihu depth trivial (stops_cons.2 (by decide))).bind (Nat.le_max_left _ _)
      (Nat.le_succ_of_le (Nat.le_max_left _ _)) fun hd _ => ?_
    exact ((ihv depth trivial hr).max_left hd).bind (Nat.le_refl _)
      (Nat.le_succ_of_le (Nat.le_max_right _ _)) fun hd _ => Meets.root hd rfl
  | bangs n _ ih =>
    rw [List.append_assoc]
    refine (ih depth trivial (stops_primary _)).bind (Nat.le_refl _) ?_
      fun hd ha => meets_bangs n hd ha hr
    rw [height_iterate_factorial]
    omega
  | num | pi | euler => exact .inl ⟨Nat.zero_le _, (by decide : 1 ≤ maxHeight), rfl⟩
  | bracketed _ ih =>
    rw [List.cons_append, List.append_assoc]
    exact (ih depth trivial (stops_closeParen _ _)).bind (Nat.le_refl _) (Nat.le_refl _)
      fun hd ha =>
      .inl ⟨hd, ha, rfl⟩
  | call _ ih =>
    rename_i f u a d _
    rw [List.cons_append, List.cons_append, List.append_assoc]
    change Meets depth d _ r
      (Phrase.primary _ (.word f.name :: .openParen :: (u ++ .closeParen :: r)))
    rw [Phrase.primary, Func.ofName?_name]
    have h : Meets depth d a r (Phrase.bracketed (Phrase.signed depth) (u ++ .closeParen :: r)) :=
      (ih depth trivial (stops_closeParen _ _)).bind (Nat.le_refl _) (Nat.le_refl _) fun hd ha =>
        .inl ⟨hd, ha, rfl⟩
    exact h.bind (Nat.le_refl _) (Nat.le_succ _) fun hd _ => Meets.root hd rfl

/-- What a reader of the phrase `s` returns: the tree of a prefix, within the limits, in front of
tokens that end the phrase. -/
def Found (s : Symbol) (depth : Nat) (ts : List Token) (n : Node) (r : List Token) : Prop :=
  ∃ u e d, ts = u ++ r ∧ n = Node.ofExpr e ∧ Derives s u e d ∧ d ≤ depth ∧ e.height ≤ maxHeight ∧
    Stops s r

theorem exists_of_bind_eq_ok {α β : Type} {x : Except Fault α} {k : α → Except Fault β} {b : β}
    (h : x >>= k = .ok b) : ∃ a, x = .ok a ∧ k a = .ok b := by
  cases x with
  | error f => cases h
  | ok a => exact ⟨a, rfl, h⟩

theorem root_eq_ok {below : Nat} {e : Expr} {n : Node} {r r' : List Token}
    (he : e.height = below + 1) (h : (do return (← Node.above below e, r)) = Except.ok (n, r')) :
    n = Node.ofExpr e ∧ r' = r ∧ e.height ≤ maxHeight := by
  obtain ⟨n', hn, hr⟩ := exists_of_bind_eq_ok h
  cases hr
  rw [Node.above_eq he] at hn
  split at hn
  · cases hn
    exact ⟨rfl, rfl, ‹_›⟩
  · cases hn

theorem level_of_op?_none {l : Layer} {t : Token} (h : l.op? t = none)
    (ht : strength t < l.operand.level) : strength t < l.level := by
  cases l <;> cases t <;>
    first | exact Nat.lt_of_sub_eq_succ rfl | exact absurd ht (by decide) | cases h

theorem found_rest {l : Layer} {depth : Nat} {operand : Phrase} {a : Expr} {ts r : List Token}
    {n : Node} (hop : ∀ ts n r, operand ts = .ok (n, r) → Found l.operand depth ts n r)
    (ha : a.height ≤ maxHeight) (hts : Stops l.operand ts)
    (h : Phrase.chain l.op? operand (Node.ofExpr a) ts = .ok (n, r)) :
    Found (.rest l a) depth ts n r := by
  -- every operator takes a token away
  induction hk : ts.length using Nat.strongRecOn generalizing ts a with
  | ind k ih =>
    cases ts with
    | nil =>
      rw [Phrase.chain_nil] at h
      cases h
      exact ⟨[], a, 0, rfl, rfl, .done, Nat.zero_le _, ha, stops_nil _⟩
    | cons t ts =>
      cases ho : l.op? t with
      | none =>
        rw [Phrase.chain_of_none ho] at h
        cases h
        refine ⟨[], a, 0, rfl, rfl, .done, Nat.zero_le _, ha, ?_⟩
        exact stops_cons.2 (level_of_op?_none ho (stops_cons.1 hts))
      | some op =>
        rw [Phrase.chain_of_some ho] at h
        obtain ⟨⟨right, r₁⟩, hr₁, h⟩ := exists_of_bind_eq_ok h
        obtain ⟨u, b, d, rfl, rfl, hu, hd, hb, hs⟩ := hop _ _ _ hr₁
        obtain ⟨whole, hw, h⟩ := exists_of_bind_eq_ok h
        change Node.above (max a.height b.height) (.binary op a b) = .ok whole at hw
        rw [Node.above_eq (e := .binary op a b) rfl] at hw
        split at hw
        · cases hw
          have hlen : r₁.length < k := by
            simp at hk
            omega
          obtain ⟨v, e, d', rfl, rfl, hv, hd', he, hs'⟩ := ih _ hlen ‹_› hs h rfl
          exact ⟨t :: (u ++ v), e, max d d', by simp, rfl, .more ho hu hv,
            Nat.max_le.2 ⟨hd, hd'⟩, he, hs'⟩
        · cases hw

theorem found_chain {l : Layer} {depth : Nat} {operand : Phrase} {ts r : List Token} {n : Node}
    (hop : ∀ ts n r, operand ts = .ok (n, r) → Found l.operand depth ts n r)
    (h : (do let (left, rest) ← operand ts; Phrase.chain l.op? operand left rest) = .ok (n, r)) :
    Found (.chain l) depth ts n r := by
  obtain ⟨⟨left, r₁⟩, hr₁, h⟩ := exists_of_bind_eq_ok h
  obtain ⟨u, a, d, rfl, rfl, hu, hd, ha, hs⟩ := hop _ _ _ hr₁
  obtain ⟨v, e, d', rfl, rfl, hv, hd', he, hs'⟩ := found_rest hop ha hs h
  exact ⟨u ++ v, e, max d d', by simp, rfl, .chain hu hv, Nat.max_le.2 ⟨hd, hd'⟩, he, hs'⟩

section
variable {depth : Nat} {operand : Phrase} {ts r : List Token} {n : Node}

theorem found_sum (hop : ∀ ts n r, operand ts = .ok (n, r) → Found .signed depth ts n r)
    (h : Phrase.sum operand ts = .ok (n, r)) : Found .sum depth ts n r := by
  have hproduct : ∀ ts n r, Phrase.product operand ts = .ok (n, r) → Found .product depth ts n r :=
    fun _ _ _ h => found_chain (l := .product) hop h
  exact found_chain (l := .sum) hproduct h

theorem found_bracketed (hop : ∀ ts n r, operand ts = .ok (n, r) → Found .signed depth ts n r)
    (h : Phrase.bracketed operand ts = .ok (n, r)) : Found .sum depth ts n (.closeParen :: r) := by
  obtain ⟨⟨inside, r₁⟩, hr₁, h⟩ := exists_of_bind_eq_ok h
  have hf := found_sum hop hr₁
  simp only at h
  split at h
  · cases h
    exact hf
  · cases h
  · cases h

theorem found_primary (hop : ∀ ts n r, operand ts = .ok (n, r) → Found .signed depth ts n r)
    (h : Phrase.primary operand ts = .ok (n, r)) : Found .primary depth ts n r := by
  have h1 : 1 ≤ maxHeight := by decide
  unfold Phrase.primary at h
  split at h
  · cases h
    exact ⟨_, _, 0, rfl, rfl, .num, Nat.zero_le _, h1, stops_primary _⟩
  · cases h
    exact ⟨_, _, 0, rfl, rfl, .pi, Nat.zero_le _, h1, stops_primary _⟩
  · cases h
    exact ⟨_, _, 0, rfl, rfl, .euler, Nat.zero_le _, h1, stops_primary _⟩
  · obtain ⟨u, e, d, rfl, rfl, hu, hd, he, -⟩ := found_bracketed hop h
    exact ⟨_, e, d, by simp, rfl, .bracketed hu, hd, he, stops_primary _⟩
  · split at h
    · cases h
    · rename_i f hf
      split at h
      · obtain ⟨⟨argument, r₁⟩, hr₁, h⟩ := exists_of_bind_eq_ok h
        obtain ⟨u, a, d, rfl, rfl, hu, hd, ha, -⟩ := found_bracketed hop hr₁
        obtain ⟨rfl, rfl, he⟩ := root_eq_ok (e := .call f a) rfl h
        cases Func.name_of_ofName? hf
        exact ⟨_, .call f a, d, by simp, rfl, .call hu, hd, he, stops_primary _⟩
      · cases h
  · cases h

theorem found_bangs {a : Expr} (ha : a.height ≤ maxHeight)
    (h : Phrase.bangs (Node.ofExpr a) ts = .ok (n, r)) :
    ∃ k, ts = List.replicate k .bang ++ r ∧ n = Node.ofExpr (Expr.factorial^[k] a) ∧
      (Expr.factorial^[k] a).height ≤ maxHeight ∧ Stops .factorial r := by
  induction ts generalizing a with
  | nil =>
    cases h
    exact ⟨0, rfl, rfl, ha, stops_nil _⟩
  | cons t ts ih =>
    by_cases ht : t = .bang
    · subst ht
      obtain ⟨b, hb, h⟩ := exists_of_bind_eq_ok h
      change Node.above a.height (.factorial a) = .ok b at hb
      rw [Node.above_eq (e := .factorial a) rfl] at hb
      split at hb
      · cases hb
        obtain ⟨k, rfl, rfl, he, hr⟩ := ih ‹_› h
        exact ⟨k + 1, rfl, rfl, he, hr⟩
      · cases hb
    · have hs : Stops .factorial (t :: ts) := by
        rw [stops_cons]
        cases t <;> first | exact absurd rfl ht | exact Nat.lt_of_sub_eq_succ rfl
      rw [bangs_of_stops hs] at h
      cases h
      exact ⟨0, rfl, rfl, ha, hs⟩

theorem found_factorial (hop : ∀ ts n r, operand ts = .ok (n, r) → Found .signed depth ts n r)
    (h : Phrase.factorial operand ts = .ok (n, r)) : Found .factorial depth ts n r := by
  obtain ⟨⟨a, r₁⟩, hr₁, h⟩ := exists_of_bind_eq_ok h
  obtain ⟨u, a, d, rfl, rfl, hu, hd, ha, -⟩ := found_primary hop hr₁
  obtain ⟨k, rfl, rfl, he, hr⟩ := found_bangs ha h
  exact ⟨_, _, d, by simp, rfl, .bangs k hu, hd, he, hr⟩

theorem found_power (hop : ∀ ts n r, operand ts = .ok (n, r) → Found .signed depth ts n r)
    (h : Phrase.power operand ts = .ok (n, r)) : Found .power depth ts n r := by
  obtain ⟨⟨base, r₁⟩, hr₁, h⟩ := exists_of_bind_eq_ok h
  obtain ⟨u, a, d, rfl, rfl, hu, hd, ha, hs⟩ := found_factorial hop hr₁
  simp only at h
  split at h
  · obtain ⟨⟨exponent, r₂⟩, hr₂, h⟩ := exists_of_bind_eq_ok h
    obtain ⟨v, b, d', rfl, rfl, hv, hd', hb, hs'⟩ := hop _ _ _ hr₂
    obtain ⟨rfl, rfl, he⟩ := root_eq_ok (e := .binary .pow a b) rfl h
    exact ⟨_, _, _, by simp, rfl, .raised hu hv, Nat.max_le.2 ⟨hd, hd'⟩, he, hs'⟩
  · rename_i hcaret
    cases h
    refine ⟨u, a, d, rfl, rfl, .base hu, hd, ha, ?_⟩
    intro t ht
    have hlt := hs t ht
    cases r with
    | nil => cases ht
    | cons _ r =>
      cases ht
      cases t <;> first
        | exact Nat.lt_of_sub_eq_succ rfl
        | exact (hcaret _ rfl).elim
        | exact absurd hlt (by decide)

end

theorem found_signed {depth : Nat} {ts r : List Token} {n : Node}
    (h : Phrase.signed depth ts = .ok (n, r)) : Found .signed depth ts n r := by
  induction depth generalizing ts r n with
  | zero => cases h
  | succ depth ih =>
    have hpower : Phrase.power (Phrase.signed depth) ts = .ok (n, r) →
        Found .signed (depth + 1) ts n r := by
      intro h
      obtain ⟨u, a, d, rfl, rfl, hu, hd, ha, hs⟩ := found_power (fun _ _ _ => ih) h
      exact ⟨_, _, _, rfl, rfl, .unsigned hu, Nat.succ_le_succ hd, ha, hs⟩
    cases ts with
    | nil => exact hpower h
    | cons t ts =>
      by_cases hm : t = .minus
      · subst hm
        rw [Phrase.signed_minus] at h
        obtain ⟨⟨a, r₁⟩, hr₁, h⟩ := exists_of_bind_eq_ok h
        obtain ⟨u, a, d, rfl, rfl, hu, hd, ha, hs⟩ := ih hr₁
        obtain ⟨rfl, rfl, he⟩ := root_eq_ok (e := .neg a) rfl h
        exact ⟨_, _, _, by simp, rfl, .negative hu, Nat.succ_le_succ hd, he, hs⟩
      by_cases hp : t = .plus
      · subst hp
        obtain ⟨u, a, d, rfl, rfl, hu, hd, ha, hs⟩ := ih h
        exact ⟨_, _, _, by simp, rfl, .positive hu, Nat.succ_le_succ hd, ha, hs⟩
      · rw [Phrase.signed_of_ne hm hp] at h
        exact hpower h

/-- What is read as a sum is one, and the limits hold. -/
theorem found_read_sum {depth : Nat} {ts r : List Token} {n : Node}
    (h : Phrase.sum (Phrase.signed depth) ts = .ok (n, r)) : Found .sum depth ts n r :=
  found_sum (fun _ _ _ => found_signed) h

theorem Derives.ne_nil {ts : List Token} {e : Expr} {d : Nat} (h : Derives .sum ts e d) :
    ts ≠ [] := by
  rintro rfl
  obtain ⟨-, -, h⟩ | ⟨-, h⟩ | ⟨-, h⟩ := h.meets 1 trivial (stops_nil _)
  all_goals cases h

theorem ofTokens_of_ne_nil {ts : List Token} (h : ts ≠ []) :
    Expr.ofTokens ts = (do
      let (whole, rest) ← Phrase.sum (Phrase.signed maxDepth) ts
      if rest.isEmpty then .ok whole.expr else .error (Phrase.stuck rest)) := by
  rw [Expr.ofTokens, if_neg (by simpa using h)]

/-- The tokens of a sum are its tree, or refused for a limit that the derivation breaks. -/
theorem ofTokens_of_derives {ts : List Token} {e : Expr} {d : Nat} (h : Derives .sum ts e d) :
    (d ≤ maxDepth ∧ e.height ≤ maxHeight ∧ Expr.ofTokens ts = .ok e) ∨
    (maxDepth < d ∧ Expr.ofTokens ts = .error (.tooDeep maxDepth)) ∨
    (maxHeight < e.height ∧ Expr.ofTokens ts = .error (.tooDeep maxHeight)) := by
  have hm := h.meets maxDepth trivial (stops_nil _)
  rw [List.append_nil] at hm
  rw [ofTokens_of_ne_nil h.ne_nil]
  change Meets maxDepth d e [] (Phrase.sum (Phrase.signed maxDepth) ts) at hm
  obtain ⟨hd, he, hx⟩ | ⟨hd, hx⟩ | ⟨he, hx⟩ := hm
  · exact .inl ⟨hd, he, by rw [hx]; rfl⟩
  · exact .inr (.inl ⟨hd, by rw [hx]; rfl⟩)
  · exact .inr (.inr ⟨he, by rw [hx]; rfl⟩)

theorem ofTokens_of_derives_of_le {ts : List Token} {e : Expr} {d : Nat} (h : Derives .sum ts e d)
    (hd : d ≤ maxDepth) (he : e.height ≤ maxHeight) : Expr.ofTokens ts = .ok e := by
  obtain ⟨-, -, hx⟩ | ⟨hlt, -⟩ | ⟨hlt, -⟩ := ofTokens_of_derives h
  · exact hx
  · omega
  · omega

theorem derives_of_ofTokens {ts : List Token} {e : Expr} (h : Expr.ofTokens ts = .ok e) :
    ∃ d, Derives .sum ts e d ∧ d ≤ maxDepth ∧ e.height ≤ maxHeight := by
  rw [Expr.ofTokens] at h
  split at h
  · cases h
  · obtain ⟨⟨n, r⟩, hr, h⟩ := exists_of_bind_eq_ok h
    obtain ⟨u, e', d, rfl, rfl, hu, hd, he, -⟩ := found_read_sum hr
    simp only at h
    split at h
    · rename_i hnil
      cases h
      rw [List.isEmpty_iff] at hnil
      subst hnil
      rw [List.append_nil]
      exact ⟨d, hu, hd, he⟩
    · cases h

/-- Exactly the sums within the two limits are accepted, each with the tree that the grammar gives
it; a sum beyond a limit is refused for a limit, and no tokens have two trees. -/
theorem ofTokens_eq_ok_iff_derives (ts : List Token) :
    (∀ e, Expr.ofTokens ts = .ok e ↔
      ∃ d, Derives .sum ts e d ∧ d ≤ maxDepth ∧ e.height ≤ maxHeight) ∧
    (∀ e d, Derives .sum ts e d → maxDepth < d ∨ maxHeight < e.height →
      Expr.ofTokens ts = .error (.tooDeep maxDepth) ∨
      Expr.ofTokens ts = .error (.tooDeep maxHeight)) ∧
    (∀ e e' d d', Derives .sum ts e d → Derives .sum ts e' d' → e = e' ∧ d = d') := by
  refine ⟨fun e => ⟨derives_of_ofTokens, ?_⟩, ?_, ?_⟩
  · intro ⟨d, h, hd, he⟩
    exact ofTokens_of_derives_of_le h hd he
  · intro e d h hlim
    obtain ⟨hd, he, -⟩ | ⟨-, hx⟩ | ⟨-, hx⟩ := ofTokens_of_derives h
    · omega
    · exact .inl hx
    · exact .inr hx
  · intro e e' d d' h h'
    obtain ⟨he, hd, -⟩ := h.unique h' (stops_nil _) (stops_nil _) rfl
    exact ⟨he, hd⟩

theorem derives_signs (n : Nat) (x : Float) :
    Derives .signed (List.replicate n .minus ++ [.num x]) (Expr.neg^[n] (.lit x)) (n + 1) := by
  induction n with
  | zero => exact .unsigned (.base (.bangs 0 .num))
  | succ n ih =>
    rw [Function.iterate_succ_apply']
    exact .negative ih

/-- A product in a sum is read as such and in no other way, and one sign too many is refused. -/
theorem ofTokens_one_add_two_mul_three :
    Expr.ofTokens [.num 1, .plus, .num 2, .star, .num 3] =
      .ok (.binary .add (.lit 1) (.binary .mul (.lit 2) (.lit 3))) ∧
    (¬∃ d, Derives .sum [.num 1, .plus, .num 2, .star, .num 3]
      (.binary .mul (.binary .add (.lit 1) (.lit 2)) (.lit 3)) d) ∧
    (Expr.ofTokens (List.replicate 256 .minus ++ [.num 1]) = .error (.tooDeep maxDepth) ∨
      Expr.ofTokens (List.replicate 256 .minus ++ [.num 1]) = .error (.tooDeep maxHeight)) := by
  have one (x : Float) : Derives .signed [.num x] (.lit x) 1 := derives_signs 0 x
  have six : Derives .product [.num 2, .star, .num 3] (.binary .mul (.lit 2) (.lit 3)) 1 :=
    .chain (l := .product) (one 2) (.more (l := .product) rfl (one 3) .done)
  have seven : Derives .sum [.num 1, .plus, .num 2, .star, .num 3]
      (.binary .add (.lit 1) (.binary .mul (.lit 2) (.lit 3))) 1 :=
    .chain (l := .sum) (Derives.chain_of_operand (l := .product) (one 1))
      (.more (l := .sum) rfl six .done)
  refine ⟨?_, ?_, ?_⟩
  · exact ((ofTokens_eq_ok_iff_derives _).1 _).2 ⟨1, seven, by decide, by decide +kernel⟩
  · rintro ⟨d, hd⟩
    cases ((ofTokens_eq_ok_iff_derives _).2.2 _ _ _ _ hd seven).1
  · exact (ofTokens_eq_ok_iff_derives _).2.1 _ _ (derives_signs 256 1).sum_of_signed
      (.inl (by decide))

end Grammar

end SciCalc
