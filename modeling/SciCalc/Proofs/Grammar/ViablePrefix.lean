import SciCalc.Proofs.Grammar.Reading

namespace SciCalc.Grammar

/-- What a reader that stops waits for: an operand, the parenthesis behind the name of a function,
the end of what stands in parentheses, or the end of the tokens. -/
inductive Awaited where
  | operand
  | openParen
  | closeParen
  | ending

def startsOperand : Token → Bool
  | .num _ | .pi | .euler | .openParen | .plus | .minus => true
  | .word name => (Func.ofName? name).isSome
  | _ => false

namespace Awaited

/-- Tokens that give what is awaited. -/
def given : Awaited → List Token
  | operand => [.num 0]
  | openParen => [.openParen, .num 0, .closeParen]
  | closeParen => [.closeParen]
  | ending => []

/-- What is awaited is not in front, and no operator goes on instead. -/
def Blocks : Awaited → List Token → Prop
  | operand, r => ∀ t ∈ r.head?, startsOperand t = false
  | openParen, r => ∀ t ∈ r.head?, t ≠ .openParen
  | closeParen, r => ∀ t ∈ r.head?, t ≠ .closeParen ∧ strength t = 0
  | ending, r => r ≠ [] ∧ ∀ t ∈ r.head?, strength t = 0

def fault : Awaited → List Token → Fault
  | operand, .word name :: _ => .unknownName name
  | closeParen, [] => .unclosedParen
  | _, r => Phrase.stuck r

end Awaited

/-- Behind `u`, what `x` waits for and some closing parentheses complete a phrase `s`. -/
def Waits (s : Symbol) (u : List Token) (x : Awaited) : Prop :=
  ∃ m e d, Derives s (u ++ (x.given ++ List.replicate m .closeParen)) e d

/-- The reader `p` fails on `ts` behind a prefix of a phrase `s`, and whatever else `x` does not
wait for stands there, it fails at the same place. -/
def Blocked (s : Symbol) (p : Phrase) (ts : List Token) (f : Fault) : Prop :=
  ∃ u r x, ts = u ++ r ∧ (u = [] → x = .operand) ∧ Waits s u x ∧ x.Blocks r ∧ f = x.fault r ∧
    ∀ r', x.Blocks r' → p (u ++ r') = .error (x.fault r')

def Halts (s : Symbol) (p : Phrase) (ts : List Token) (f : Fault) : Prop :=
  (∃ limit, f = .tooDeep limit) ∨ Blocked s p ts f

theorem exists_of_bind_eq_error {α β : Type} {x : Except Fault α} {k : α → Except Fault β}
    {f : Fault} (h : x >>= k = .error f) : x = .error f ∨ ∃ a, x = .ok a ∧ k a = .error f := by
  cases x with
  | error g =>
    cases h
    exact .inl rfl
  | ok a => exact .inr ⟨a, rfl, h⟩

theorem bind_eq_error {α β : Type} {x : Except Fault α} {k : α → Except Fault β} {f : Fault}
    (h : x = .error f) : x >>= k = .error f := by
  rw [h]
  rfl

theorem above_eq_error {below : Nat} {e : Expr} {f : Fault} (h : Node.above below e = .error f) :
    ∃ limit, f = .tooDeep limit := by
  unfold Node.above at h
  split at h
  · cases h
  · cases h
    exact ⟨_, rfl⟩

theorem bangs_eq_error {a : Node} {ts : List Token} {f : Fault} (h : Phrase.bangs a ts = .error f) :
    ∃ limit, f = .tooDeep limit := by
  induction ts generalizing a with
  | nil => cases h
  | cons t ts ih =>
    by_cases ht : t = .bang
    · subst ht
      obtain h | ⟨b, -, h⟩ := exists_of_bind_eq_error h
      · exact above_eq_error h
      · exact ih h
    · cases t <;> first | exact absurd rfl ht | cases h

theorem root_eq_error {below : Nat} {e : Expr} {f : Fault} {r : List Token}
    (h : (do return (← Node.above below e, r)) = Except.error (α := Node × List Token) f) :
    ∃ limit, f = .tooDeep limit := by
  obtain h | ⟨n, -, h⟩ := exists_of_bind_eq_error h
  · exact above_eq_error h
  · cases h

theorem Blocked.lift {s s' : Symbol} {p q : Phrase} {ts : List Token} {f : Fault} (w : List Token)
    (h : Blocked s p ts f) (hw : ∀ u x, Waits s u x → Waits s' (w ++ u) x)
    (hq : ∀ u x r', u <+: ts → (u = [] → x = .operand) → Waits s u x → x.Blocks r' →
      p (u ++ r') = .error (x.fault r') → q (w ++ (u ++ r')) = .error (x.fault r')) :
    Blocked s' q (w ++ ts) f := by
  obtain ⟨u, r, x, rfl, hu, hwait, hr, rfl, hp⟩ := h
  refine ⟨w ++ u, r, x, by simp, ?_, hw u x hwait, hr, rfl, ?_⟩
  · intro hnil
    exact hu (List.append_eq_nil_iff.1 hnil).2
  · intro r' hr'
    rw [List.append_assoc]
    exact hq u x r' (List.prefix_append _ _) hu hwait hr' (hp r' hr')

theorem Halts.lift {s s' : Symbol} {p q : Phrase} {ts : List Token} {f : Fault} (w : List Token)
    (h : Halts s p ts f) (hw : ∀ u x, Waits s u x → Waits s' (w ++ u) x)
    (hq : ∀ u x r', u <+: ts → (u = [] → x = .operand) → Waits s u x → x.Blocks r' →
      p (u ++ r') = .error (x.fault r') → q (w ++ (u ++ r')) = .error (x.fault r')) :
    Halts s' q (w ++ ts) f :=
  h.imp id fun h => h.lift w hw hq

theorem Waits.of_derives {s s' : Symbol} (w : List Token)
    (h : ∀ v e d, Derives s v e d → ∃ e' d', Derives s' (w ++ v) e' d') (u : List Token)
    (x : Awaited) (hu : Waits s u x) : Waits s' (w ++ u) x := by
  obtain ⟨m, e, d, hd⟩ := hu
  obtain ⟨e', d', hd'⟩ := h _ _ _ hd
  exact ⟨m, e', d', by simpa using hd'⟩

/-- One more closing parenthesis completes a phrase around a phrase. -/
theorem Waits.enclose {s s' : Symbol} (w : List Token)
    (h : ∀ v e d, Derives s v e d → ∃ e' d', Derives s' (w ++ (v ++ [.closeParen])) e' d')
    (u : List Token) (x : Awaited) (hu : Waits s u x) : Waits s' (w ++ u) x := by
  obtain ⟨m, e, d, hd⟩ := hu
  obtain ⟨e', d', hd'⟩ := h _ _ _ hd
  refine ⟨m + 1, e', d', ?_⟩
  simpa [List.replicate_succ'] using hd'

theorem given_not_op {l : Layer} {x : Awaited} {t : Token} {op : BinaryOp} {m : Nat}
    {w : List Token} (h : x.given ++ List.replicate m .closeParen = t :: w) :
    l.op? t ≠ some op := by
  intro ho
  cases x with
  | ending =>
    cases m with
    | zero => cases h
    | succ m =>
      cases h
      cases l <;> cases ho
  | _ =>
    cases h
    cases l <;> cases ho

/-- A chain in which nothing has been read waits behind an operator. -/
theorem Waits.stops_operand {l : Layer} {a : Expr} {u : List Token} {x : Awaited}
    (h : Waits (.rest l a) u x) (hx : u = [] → x = .operand) (r : List Token) :
    Stops l.operand (u ++ r) := by
  obtain ⟨m, e, d, hd⟩ := h
  generalize hv : u ++ (x.given ++ List.replicate m .closeParen) = v at hd
  cases hd with
  | done =>
    obtain ⟨rfl, hg⟩ := List.append_eq_nil_iff.1 hv
    rw [hx rfl] at hg
    cases hg
  | more ho _ _ =>
    cases u with
    | nil => exact absurd ho (given_not_op hv)
    | cons t u =>
      obtain ⟨rfl, -⟩ := List.cons.inj hv
      rw [List.cons_append, stops_cons, strength_of_op? ho]
      exact l.level_lt_operand

/-- A phrase within the limits is read from the front of any tokens that end it. -/
theorem Derives.read_eq_ok {s : Symbol} {u : List Token} {e : Expr} {d depth : Nat}
    (h : Derives s u e d) (hs : s.Fits) (hd : d ≤ depth) (he : e.height ≤ maxHeight)
    {r : List Token} (hr : Stops s r) :
    s.read depth (u ++ r) = .ok (Node.ofExpr e, r) := by
  obtain ⟨-, -, hx⟩ | ⟨hd', -⟩ | ⟨he', -⟩ := h.meets depth hs hr
  · exact hx
  · omega
  · omega

theorem halts_rest {l : Layer} {depth : Nat} {a : Expr} {ts : List Token} {f : Fault}
    (hfound : ∀ ts n r, l.operand.read depth ts = .ok (n, r) → Found l.operand depth ts n r)
    (hop : ∀ ts f, l.operand.read depth ts = .error f → Halts l.operand (l.operand.read depth) ts f)
    (h : (Symbol.rest l a).read depth ts = .error f) :
    Halts (.rest l a) ((Symbol.rest l a).read depth) ts f := by
  induction hk : ts.length using Nat.strongRecOn generalizing ts a with
  | ind k ih =>
    rw [read_rest] at h
    cases ts with
    | nil =>
      rw [Phrase.chain_nil] at h
      cases h
    | cons t ts =>
      cases ho : l.op? t with
      | none =>
        rw [Phrase.chain_of_none ho] at h
        cases h
      | some op =>
        rw [Phrase.chain_of_some ho] at h
        obtain h | ⟨⟨right, r₁⟩, hr₁, h⟩ := exists_of_bind_eq_error h
        · refine (hop _ _ h).lift [t] ?_ fun u x r' _ _ _ _ hp => ?_
          · exact Waits.of_derives _ fun v b d hv => ⟨_, _, by simpa using Derives.more ho hv .done⟩
          · rw [read_rest, List.singleton_append, Phrase.chain_of_some ho, hp]
            rfl
        · obtain ⟨u, b, d, rfl, rfl, hu, hd, hb, -⟩ := hfound _ _ _ hr₁
          obtain h | ⟨whole, hw, h⟩ := exists_of_bind_eq_error h
          · exact .inl (above_eq_error h)
          · change Node.above (max a.height b.height) (.binary op a b) = .ok whole at hw
            have hwhole := hw
            rw [Node.above_eq (e := .binary op a b) rfl] at hw
            split at hw
            · cases hw
              change Phrase.chain l.op? (l.operand.read depth) _ r₁ = .error f at h
              rw [← read_rest] at h
              have hlen : r₁.length < k := by
                simp at hk
                omega
              refine (ih _ hlen h rfl).lift (t :: u) ?_ fun u' x r' _ hx hwait _ hp => ?_
              · exact Waits.of_derives _ fun v e d hv => ⟨_, _, .more ho hu hv⟩
              · rw [read_rest, List.cons_append, Phrase.chain_of_some ho,
                  hu.read_eq_ok (operand_fits l) hd hb (hwait.stops_operand hx r')]
                rw [read_rest] at hp
                change (Node.binary op (Node.ofExpr a) (Node.ofExpr b) >>= fun whole =>
                  Phrase.chain l.op? (l.operand.read depth) whole (u' ++ r')) = _
                change (Node.above (max a.height b.height) (.binary op a b) >>= _) = _
                rw [hwhole]
                exact hp
            · cases hw

theorem halts_chain {l : Layer} (depth : Nat) {ts : List Token} {f : Fault}
    (hfound : ∀ ts n r, l.operand.read depth ts = .ok (n, r) → Found l.operand depth ts n r)
    (hop : ∀ ts f, l.operand.read depth ts = .error f → Halts l.operand (l.operand.read depth) ts f)
    (h : (Symbol.chain l).read depth ts = .error f) :
    Halts (.chain l) ((Symbol.chain l).read depth) ts f := by
  rw [read_chain] at h
  obtain h | ⟨⟨left, r₁⟩, hr₁, h⟩ := exists_of_bind_eq_error h
  · refine (hop _ _ h).lift [] ?_ fun u x r' _ _ _ _ hp => ?_
    · exact Waits.of_derives _ fun v b d hv => ⟨_, _, hv.chain_of_operand⟩
    · rw [List.nil_append, read_chain, hp]
      rfl
  · obtain ⟨u, a, d, rfl, rfl, hu, hd, ha, -⟩ := hfound _ _ _ hr₁
    simp only at h
    rw [← read_rest] at h
    refine (halts_rest hfound hop h).lift u ?_ fun u' x r' _ hx hwait _ hp => ?_
    · exact Waits.of_derives _ fun v e d hv => ⟨_, _, .chain hu hv⟩
    · rw [read_chain, hu.read_eq_ok (operand_fits l) hd ha (hwait.stops_operand hx r')]
      rw [read_rest] at hp
      exact hp

section
variable {depth : Nat} {ts : List Token} {f : Fault}

theorem halts_sum
    (hop : ∀ ts f, Phrase.signed depth ts = .error f → Halts .signed (Phrase.signed depth) ts f)
    (h : Phrase.sum (Phrase.signed depth) ts = .error f) :
    Halts .sum (Phrase.sum (Phrase.signed depth)) ts f :=
  halts_chain (l := .sum) depth
    (fun _ _ _ h => found_chain (l := .product) (fun _ _ _ => found_signed) h)
    (fun _ _ h => halts_chain (l := .product) depth (fun _ _ _ => found_signed) hop h) h

/-- In front of anything but a closing parenthesis, what stands in parentheses has not ended. -/
theorem bracketed_of_blocks {u : List Token} {e : Expr} {d : Nat} (hu : Derives .sum u e d)
    (hd : d ≤ depth) (he : e.height ≤ maxHeight) {r : List Token}
    (hr : Awaited.closeParen.Blocks r) :
    Phrase.bracketed (Phrase.signed depth) (u ++ r) = .error (Awaited.closeParen.fault r) := by
  have hs : Stops .sum r := by
    intro t ht
    rw [(hr t ht).2]
    decide
  have hread : Phrase.sum (Phrase.signed depth) (u ++ r) = .ok (Node.ofExpr e, r) :=
    hu.read_eq_ok (s := .sum) trivial hd he hs
  rw [Phrase.bracketed, hread]
  cases r with
  | nil => rfl
  | cons t r =>
    have ht := (hr t rfl).1
    cases t <;> first | rfl | exact absurd rfl ht

/-- `w` opens the parenthesis of the phrase that `q` reads. -/
theorem halts_bracketed {q : Phrase} (w : List Token) (hw : w ≠ [])
    (hop : ∀ ts f, Phrase.signed depth ts = .error f → Halts .signed (Phrase.signed depth) ts f)
    (hd : ∀ v e d, Derives .sum v e d → ∃ e' d', Derives .primary (w ++ (v ++ [.closeParen])) e' d')
    (hq : ∀ ts f, Phrase.bracketed (Phrase.signed depth) ts = .error f → q (w ++ ts) = .error f)
    (h : Phrase.bracketed (Phrase.signed depth) ts = .error f) : Halts .primary q (w ++ ts) f := by
  obtain h | ⟨⟨inside, r⟩, hr, h⟩ := exists_of_bind_eq_error h
  · refine (halts_sum hop h).lift w (Waits.enclose w hd) fun u x r' _ _ _ _ hp => hq _ _ ?_
    rw [Phrase.bracketed, hp]
    rfl
  · obtain ⟨u, e, d, rfl, rfl, hu, hdd, he, hs⟩ := found_read_sum hr
    have hb : Awaited.closeParen.Blocks r := by
      intro t ht
      have hlt := hs t ht
      refine ⟨?_, by simpa [Symbol.level, Layer.level] using hlt⟩
      rintro rfl
      cases r with
      | nil => cases ht
      | cons t r =>
        cases ht
        cases h
    have hf : f = Awaited.closeParen.fault r := by
      have hx := bracketed_of_blocks hu hdd he hb
      rw [Phrase.bracketed, hr] at hx
      exact Except.error.inj (h.symm.trans hx)
    refine .inr ⟨w ++ u, r, .closeParen, by simp, ?_, ?_, hb, hf, ?_⟩
    · intro hnil
      exact absurd (List.append_eq_nil_iff.1 hnil).1 hw
    · obtain ⟨e', d', hd'⟩ := hd _ _ _ hu
      exact ⟨0, e', d', by simpa [Awaited.given] using hd'⟩
    · intro r' hr'
      rw [List.append_assoc]
      exact hq _ _ (bracketed_of_blocks hu hdd he hr')

/-- The first token is no sign, so that no signed phrase starts with it unless a power does. -/
def Unsigned (ts : List Token) : Prop := ∀ t ∈ ts.head?, t ≠ .minus ∧ t ≠ .plus

theorem unsigned_of_blocks {r : List Token} (h : Awaited.operand.Blocks r) : Unsigned r := by
  intro t ht
  have := h t ht
  constructor <;> (rintro rfl; cases this)

theorem primary_of_blocks {r : List Token} (operand : Phrase) (h : Awaited.operand.Blocks r) :
    Phrase.primary operand r = .error (Awaited.operand.fault r) := by
  cases r with
  | nil => rfl
  | cons t r =>
    have ht := h t rfl
    cases t with
    | word name =>
      have hn : Func.ofName? name = none := by simpa [startsOperand] using ht
      rw [Phrase.primary, hn]
      rfl
    | _ => first | rfl | cases ht

theorem primary_word {f : Func} {r : List Token} (operand : Phrase)
    (h : Awaited.openParen.Blocks r) :
    Phrase.primary operand (.word f.name :: r) = .error (Awaited.openParen.fault r) := by
  rw [Phrase.primary, Func.ofName?_name]
  cases r with
  | nil => rfl
  | cons t r =>
    have ht := h t rfl
    cases t <;> first | rfl | exact absurd rfl ht

/-- The call of a function halts behind its name, or in the parentheses. -/
theorem halts_call {g : Func}
    (hop : ∀ ts f, Phrase.signed depth ts = .error f → Halts .signed (Phrase.signed depth) ts f)
    (h : Phrase.primary (Phrase.signed depth) (.word g.name :: ts) = .error f) :
    Halts .primary (Phrase.primary (Phrase.signed depth)) (.word g.name :: ts) f := by
  by_cases hparen : ts.head? = some .openParen
  · obtain ⟨ts, rfl⟩ : ∃ r, ts = .openParen :: r := by
      cases ts with
      | nil => cases hparen
      | cons t ts =>
        cases hparen
        exact ⟨ts, rfl⟩
    rw [Phrase.primary, Func.ofName?_name] at h
    obtain h | ⟨⟨argument, r⟩, -, h⟩ := exists_of_bind_eq_error h
    · refine halts_bracketed [.word g.name, .openParen] (by simp) hop
        (fun v e d hv => ⟨_, _, .call hv⟩) (fun ts f h => ?_) h
      change Phrase.primary _ (.word g.name :: .openParen :: ts) = _
      rw [Phrase.primary, Func.ofName?_name]
      exact bind_eq_error h
    · exact .inl (root_eq_error h)
  · have hb : Awaited.openParen.Blocks ts := by
      rintro _ ht rfl
      exact hparen ht
    have hf := Except.error.inj (h.symm.trans (primary_word _ hb))
    exact .inr ⟨[.word g.name], ts, .openParen, rfl, by simp, ⟨0, _, _, .call (derives_num 0)⟩, hb,
      hf, fun r' => primary_word _⟩

theorem halts_primary
    (hop : ∀ ts f, Phrase.signed depth ts = .error f → Halts .signed (Phrase.signed depth) ts f)
    (hu : Unsigned ts) (h : Phrase.primary (Phrase.signed depth) ts = .error f) :
    Halts .primary (Phrase.primary (Phrase.signed depth)) ts f := by
  have hnone : Awaited.operand.Blocks ts →
      Halts .primary (Phrase.primary (Phrase.signed depth)) ts f := by
    intro hb
    have hf := Except.error.inj (h.symm.trans (primary_of_blocks _ hb))
    exact .inr ⟨[], ts, .operand, rfl, fun _ => rfl, ⟨0, _, _, .num⟩, hb, hf,
      fun r' => primary_of_blocks _⟩
  cases ts with
  | nil => exact hnone (by simp [Awaited.Blocks])
  | cons t ts =>
    have hhead : startsOperand t = false →
        Halts .primary (Phrase.primary (Phrase.signed depth)) (t :: ts) f := by
      intro ht
      refine hnone ?_
      rintro _ ⟨⟩
      exact ht
    cases t with
    | num x => cases h
    | pi => cases h
    | euler => cases h
    | openParen =>
      exact halts_bracketed [.openParen] (by simp) hop (fun v e d hv => ⟨_, _, .bracketed hv⟩)
        (fun _ _ h => h) h
    | word name =>
      cases hname : Func.ofName? name with
      | none => exact hhead (by simp [startsOperand, hname])
      | some g =>
        cases Func.name_of_ofName? hname
        exact halts_call hop h
    | plus => exact absurd rfl (hu _ rfl).2
    | minus => exact absurd rfl (hu _ rfl).1
    | star | slash | caret | bang | closeParen => exact hhead rfl

theorem halts_factorial
    (hop : ∀ ts f, Phrase.signed depth ts = .error f → Halts .signed (Phrase.signed depth) ts f)
    (hu : Unsigned ts) (h : Phrase.factorial (Phrase.signed depth) ts = .error f) :
    Halts .factorial (Phrase.factorial (Phrase.signed depth)) ts f := by
  obtain h | ⟨⟨a, r⟩, -, h⟩ := exists_of_bind_eq_error h
  · refine (halts_primary hop hu h).lift [] ?_ fun u x r' _ _ _ _ hp => ?_
    · exact Waits.of_derives _ fun v e d hv => ⟨_, _, by simpa using Derives.bangs 0 hv⟩
    · rw [List.nil_append, Phrase.factorial, hp]
      rfl
  · exact .inl (bangs_eq_error h)

theorem halts_power
    (hop : ∀ ts f, Phrase.signed depth ts = .error f → Halts .signed (Phrase.signed depth) ts f)
    (hu : Unsigned ts) (h : Phrase.power (Phrase.signed depth) ts = .error f) :
    Halts .power (Phrase.power (Phrase.signed depth)) ts f := by
  obtain h | ⟨⟨base, r⟩, hr, h⟩ := exists_of_bind_eq_error h
  · refine (halts_factorial hop hu h).lift [] ?_ fun u x r' _ _ _ _ hp => ?_
    · exact Waits.of_derives _ fun v e d hv => ⟨_, _, .base hv⟩
    · rw [List.nil_append, Phrase.power, hp]
      rfl
  · obtain ⟨u, a, d, rfl, rfl, hub, hd, ha, -⟩ := found_factorial (fun _ _ _ => found_signed) hr
    simp only at h
    split at h
    · rename_i r
      obtain h | ⟨⟨exponent, r₁⟩, -, h⟩ := exists_of_bind_eq_error h
      · rw [List.append_cons]
        refine (hop _ _ h).lift (u ++ [.caret]) ?_ fun u' x r' _ _ _ _ hp => ?_
        · exact Waits.of_derives _ fun v e d hv => ⟨_, _, by simpa using Derives.raised hub hv⟩
        · have hread : Phrase.factorial (Phrase.signed depth) (u ++ .caret :: (u' ++ r')) =
              .ok (Node.ofExpr a, .caret :: (u' ++ r')) :=
            hub.read_eq_ok (s := .factorial) trivial hd ha (stops_cons.2 (by decide))
          rw [List.append_assoc, List.singleton_append, Phrase.power, hread]
          change (Phrase.signed depth (u' ++ r') >>= _) = _
          rw [hp]
          rfl
      · exact .inl (root_eq_error h)
    · cases h

end

/-- A signed phrase halts only at a limit or behind a prefix of a signed phrase. -/
theorem halts_signed {depth : Nat} {ts : List Token} {f : Fault}
    (h : Phrase.signed depth ts = .error f) : Halts .signed (Phrase.signed depth) ts f := by
  induction depth generalizing ts f with
  | zero =>
    cases h
    exact .inl ⟨_, rfl⟩
  | succ depth ih =>
    have hpower : Unsigned ts → Phrase.power (Phrase.signed depth) ts = .error f →
        Halts .signed (Phrase.signed (depth + 1)) ts f := by
      intro hts h
      refine (halts_power (fun _ _ => ih) hts h).lift [] ?_ fun u x r' hu hx _ hr' hp => ?_
      · exact Waits.of_derives _ fun v e d hv => ⟨_, _, .unsigned hv⟩
      · have hsign : Unsigned (u ++ r') := by
          cases u with
          | nil =>
            rw [hx rfl] at hr'
            exact unsigned_of_blocks hr'
          | cons t u =>
            obtain ⟨v, rfl⟩ := hu
            exact hts
        rw [List.nil_append]
        cases hv : u ++ r' with
        | nil => rwa [hv] at hp
        | cons t w =>
          rw [hv] at hp hsign
          rwa [Phrase.signed_of_ne (hsign t rfl).1 (hsign t rfl).2]
    cases ts with
    | nil => exact hpower (by simp [Unsigned]) h
    | cons t ts =>
      by_cases hm : t = .minus
      · subst hm
        rw [Phrase.signed_minus] at h
        obtain h | ⟨⟨a, r⟩, -, h⟩ := exists_of_bind_eq_error h
        · refine (ih h).lift [.minus] ?_ fun u x r' _ _ _ _ hp => ?_
          · exact Waits.of_derives _ fun v e d hv => ⟨_, _, .negative hv⟩
          · rw [List.singleton_append, Phrase.signed_minus, hp]
            rfl
        · exact .inl (root_eq_error h)
      by_cases hp : t = .plus
      · subst hp
        refine (ih h).lift [.plus] ?_ fun u x r' _ _ _ _ hp => hp
        exact Waits.of_derives _ fun v e d hv => ⟨_, _, .positive hv⟩
      · rw [Phrase.signed_of_ne hm hp] at h
        exact hpower (by rintro _ ⟨⟩; exact ⟨hm, hp⟩) h

/-- A sentence of the grammar: a sum, whatever its depth and its height. -/
def Sentence (ts : List Token) : Prop := ∃ e d, Derives .sum ts e d

def Viable (u : List Token) : Prop := ∃ w, Sentence (u ++ w)

/-- Behind `u` a number can stand. -/
def ExpectsOperand (u : List Token) : Prop := ∃ x, Viable (u ++ [.num x])

/-- Behind `u` all is refused that `x` does not wait for. -/
def Refuses (u : List Token) (x : Awaited) : Prop :=
  ∀ r, u ++ r ≠ [] → x.Blocks r → Expr.ofTokens (u ++ r) = .error (x.fault r)

/-- Tokens without a tree, but for the limits, stop the reader behind a viable prefix. -/
theorem blocked_of_ofTokens {ts : List Token} {f : Fault} (hts : ts ≠ [])
    (h : Expr.ofTokens ts = .error f) (hlimit : ∀ limit, f ≠ .tooDeep limit) :
    ∃ u r x, ts = u ++ r ∧ Waits .sum u x ∧ x.Blocks r ∧ f = x.fault r ∧ Refuses u x := by
  rw [ofTokens_of_ne_nil hts] at h
  obtain h | ⟨⟨n, r⟩, hr, h⟩ := exists_of_bind_eq_error h
  · obtain ⟨limit, rfl⟩ | ⟨u, r, x, hu, -, hwait, hb, hf, hp⟩ :=
      halts_sum (fun _ _ => halts_signed) h
    · exact absurd rfl (hlimit limit)
    · refine ⟨u, r, x, hu, hwait, hb, hf, fun r' hne hr' => ?_⟩
      rw [ofTokens_of_ne_nil hne, hp r' hr']
      rfl
  · obtain ⟨u, e, d, rfl, rfl, hu, hd, he, hs⟩ := found_read_sum hr
    have hzero : ∀ {r}, Stops .sum r ↔ ∀ t ∈ r.head?, strength t = 0 := by
      intro r
      simp [Stops, Symbol.level, Layer.level]
    simp only at h
    split at h
    · cases h
    · rename_i hne
      cases h
      refine ⟨u, r, .ending, rfl, ⟨0, e, d, by simpa [Awaited.given] using hu⟩,
        ⟨by simpa using hne, hzero.1 hs⟩, rfl, fun r' hne' hr' => ?_⟩
      have hread : Phrase.sum (Phrase.signed maxDepth) (u ++ r') = .ok (Node.ofExpr e, r') :=
        hu.read_eq_ok (s := .sum) trivial hd he (hzero.2 hr'.2)
      rw [ofTokens_of_ne_nil hne', hread]
      change (if r'.isEmpty then _ else _) = _
      rw [if_neg (by simpa using hr'.1)]
      rfl

theorem not_sentence {ts : List Token} {f : Fault} (h : Expr.ofTokens ts = .error f)
    (hlimit : ∀ limit, f ≠ .tooDeep limit) : ¬Sentence ts := by
  rintro ⟨e, d, hd⟩
  obtain ⟨-, -, hx⟩ | ⟨-, hx⟩ | ⟨-, hx⟩ := ofTokens_of_derives hd
  · rw [hx] at h
    cases h
  · rw [hx] at h
    cases h
    exact hlimit _ rfl
  · rw [hx] at h
    cases h
    exact hlimit _ rfl

theorem Awaited.fault_cases (x : Awaited) (r : List Token) :
    (∃ name, x.fault r = .unknownName name) ∨ (∃ t, x.fault r = .unexpectedToken t) ∨
      x.fault r = .unexpectedEnd ∨ x.fault r = .unclosedParen ∨ x.fault r = .unopenedParen := by
  unfold fault
  split
  · exact .inl ⟨_, rfl⟩
  · exact .inr (.inr (.inr (.inl rfl)))
  · unfold Phrase.stuck
    split
    · exact .inr (.inr (.inl rfl))
    · exact .inr (.inr (.inr (.inr rfl)))
    · exact .inr (.inl ⟨_, rfl⟩)

/-- Tokens that are no expression are too deep, or they stop the reader at one of them or at their
end. -/
theorem fault_of_ofTokens {ts : List Token} {f : Fault} (hts : ts ≠ [])
    (h : Expr.ofTokens ts = .error f) :
    (∃ limit, f = .tooDeep limit) ∨ (∃ name, f = .unknownName name) ∨
    (∃ t, f = .unexpectedToken t) ∨
      f = .unexpectedEnd ∨ f = .unclosedParen ∨ f = .unopenedParen := by
  rw [Classical.or_iff_not_imp_left]
  intro hlimit
  obtain ⟨_, r, x, _, _, _, rfl, _⟩ := blocked_of_ofTokens hts h fun limit hf => hlimit ⟨limit, hf⟩
  exact x.fault_cases r

theorem fault_ne_tooDeep (x : Awaited) (r : List Token) (limit : Nat) :
    x.fault r ≠ .tooDeep limit := by
  obtain ⟨_, h⟩ | ⟨_, h⟩ | h | h | h := x.fault_cases r <;> rw [h] <;> exact nofun

/-- The first token decides whether it blocks and with which fault. -/
theorem blocks_cons (x : Awaited) (t : Token) (r r' : List Token) :
    (x.Blocks (t :: r) ↔ x.Blocks (t :: r')) ∧ x.fault (t :: r) = x.fault (t :: r') := by
  constructor
  · cases x <;> simp [Awaited.Blocks]
  · cases x <;> cases t <;> rfl

theorem fault_cons_ne (x : Awaited) (t : Token) (r : List Token) :
    x.fault (t :: r) ≠ .unclosedParen ∧ x.fault (t :: r) ≠ .unexpectedEnd := by
  constructor <;> (intro h; cases x <;> cases t <;> cases h)

theorem Waits.viable {u : List Token} {x : Awaited} (h : Waits .sum u x) : Viable u := by
  obtain ⟨m, e, d, hd⟩ := h
  exact ⟨_, e, d, hd⟩

theorem Waits.expectsOperand {u : List Token} (h : Waits .sum u .operand) : ExpectsOperand u := by
  obtain ⟨m, e, d, hd⟩ := h
  exact ⟨0, _, e, d, by simpa [Awaited.given] using hd⟩

theorem Viable.of_append {u v : List Token} (h : Viable (u ++ v)) : Viable u := by
  obtain ⟨w, hw⟩ := h
  exact ⟨v ++ w, by rwa [List.append_assoc] at hw⟩

/-- A number blocks all that waits for something else than an operand. -/
theorem blocks_num {x : Awaited} (hx : x ≠ .operand) (y : Float) (r : List Token) :
    x.Blocks (.num y :: r) := by
  cases x <;> simp_all [Awaited.Blocks, strength]

theorem fault_of_ne_operand {x : Awaited} (hx : x ≠ .operand) (t : Token) (r : List Token) :
    x.fault (t :: r) = Phrase.stuck (t :: r) := by
  cases x <;> first | rfl | exact absurd rfl hx

theorem stuck_cons {t : Token} (ht : t ≠ .closeParen) (r : List Token) :
    Phrase.stuck (t :: r) = .unexpectedToken t := by
  cases t <;> first | rfl | exact absurd rfl ht

section
variable {u r : List Token} {x : Awaited} {t : Token}

theorem Refuses.not_sentence (h : Refuses u x) (hne : u ++ r ≠ []) (hr : x.Blocks r) :
    ¬Sentence (u ++ r) :=
  Grammar.not_sentence (h r hne hr) (fault_ne_tooDeep x r)

theorem Refuses.eq_operand (h : Refuses u x) (hu : ExpectsOperand u) : x = .operand := by
  obtain ⟨y, w, hw⟩ := hu
  by_contra hx
  rw [List.append_assoc] at hw
  exact h.not_sentence (by simp) (blocks_num hx y w) hw

/-- The tokens behind one that blocks do not count. -/
theorem Refuses.eq_error (h : Refuses u x) (hb : x.Blocks (t :: r)) (r' : List Token) :
    Expr.ofTokens (u ++ t :: r') = .error (x.fault (t :: r)) := by
  rw [(blocks_cons x t r r').2]
  exact h _ (by simp) ((blocks_cons x t r r').1.1 hb)

theorem Refuses.not_viable (h : Refuses u x) (hb : x.Blocks (t :: r)) : ¬Viable (u ++ [t]) := by
  rintro ⟨w, hw⟩
  rw [List.append_assoc] at hw
  exact h.not_sentence (by simp) ((blocks_cons x t r w).1.1 hb) hw

/-- Closing parentheses do not help where something else is awaited. -/
theorem Refuses.not_sentence_replicate (h : Refuses u x) (hx : x ≠ .closeParen) (hu : u ≠ [])
    (hb : x.Blocks []) (m : Nat) : ¬Sentence (u ++ List.replicate m .closeParen) := by
  cases m with
  | zero =>
    rw [List.replicate_zero]
    exact h.not_sentence (by simpa using hu) hb
  | succ m =>
    have hclose : x.Blocks (.closeParen :: List.replicate m .closeParen) := by
      cases x <;> simp_all [Awaited.Blocks, startsOperand]
    exact h.not_sentence (by simp) hclose

/-- A token that blocks is at fault as such, unless it closes a parenthesis or is an unknown name in
the place of an operand. -/
theorem fault_cons_eq (hwait : Waits .sum u x) (hb : x.Blocks (t :: r)) (ht : t ≠ .closeParen)
    (hword : ¬∃ name, t = .word name ∧ Func.ofName? name = none ∧ ExpectsOperand u) :
    x.fault (t :: r) = .unexpectedToken t := by
  by_cases hx : x = .operand
  · subst hx
    cases t with
    | word name =>
      have hn : Func.ofName? name = none := by simpa [startsOperand] using hb _ rfl
      exact absurd ⟨name, rfl, hn, hwait.expectsOperand⟩ hword
    | _ => first | rfl | exact absurd rfl ht
  · rw [fault_of_ne_operand hx, stuck_cons ht]

end

theorem message_unexpectedToken (t : Token) :
    (Fault.unexpectedToken t).message = "jeton inattendu: " ++ Token.listText [t] := by
  have ht : Token.listText [t] = t.text := String.intercalate_singleton
  rw [ht]
  rfl

/-- The end of the tokens is at fault exactly if they are the beginning of a sentence; if all that
lacks is closing parentheses, for these. Otherwise the first token that no sentence has in its place
is at fault, and no token behind it counts. -/
theorem fault_at_first_dead_token {ts : List Token} {f : Fault} (hts : ts ≠ [])
    (h : Expr.ofTokens ts = .error f) (hlimit : ∀ limit, f ≠ .tooDeep limit) :
    (f = .unclosedParen ↔ ∃ m, 1 ≤ m ∧ Sentence (ts ++ List.replicate m .closeParen)) ∧
    (f = .unexpectedEnd ↔ Viable ts ∧ ∀ m, ¬Sentence (ts ++ List.replicate m .closeParen)) ∧
    (f ≠ .unclosedParen → f ≠ .unexpectedEnd →
      ∃ k t, ts[k]? = some t ∧ Viable (ts.take k) ∧ ¬Viable (ts.take (k + 1)) ∧
        (t = .closeParen → f = .unopenedParen) ∧
        (∀ name, t = .word name → Func.ofName? name = none → ExpectsOperand (ts.take k) →
          f = .unknownName name) ∧
        (t ≠ .closeParen →
          (¬∃ name, t = .word name ∧ Func.ofName? name = none ∧ ExpectsOperand (ts.take k)) →
          f = .unexpectedToken t ∧ f.message = "jeton inattendu: " ++ Token.listText [t]) ∧
        ∀ r, Expr.ofTokens (ts.take (k + 1) ++ r) = .error f) := by
  obtain ⟨u, r, x, rfl, hwait, hb, rfl, hp⟩ := blocked_of_ofTokens hts h hlimit
  cases r with
  | nil =>
    rw [List.append_nil] at hts h ⊢
    by_cases hx : x = .closeParen
    · subst hx
      obtain ⟨m, e, d, hd⟩ := hwait
      have hm : Sentence (u ++ List.replicate (m + 1) .closeParen) := ⟨e, d, hd⟩
      refine ⟨⟨fun _ => ⟨m + 1, by omega, hm⟩, fun _ => rfl⟩, ?_, fun hne => absurd rfl hne⟩
      exact ⟨fun hf => Fault.noConfusion hf, fun hv => absurd hm (hv.2 _)⟩
    · have hf : x.fault [] = .unexpectedEnd := by
        cases x <;> first | rfl | exact absurd rfl hx
      have hno := hp.not_sentence_replicate hx hts hb
      rw [hf]
      refine ⟨⟨fun hf => Fault.noConfusion hf, ?_⟩, ⟨fun _ => ⟨hwait.viable, hno⟩, fun _ => rfl⟩,
        fun _ hne => absurd rfl hne⟩
      rintro ⟨m, -, hm⟩
      exact absurd hm (hno m)
  | cons t r =>
    have hdead := hp.not_viable hb
    have hlong : ¬Viable (u ++ t :: r) := by
      intro hv
      rw [List.append_cons] at hv
      exact hdead hv.of_append
    have hne := fault_cons_ne x t r
    refine ⟨⟨fun hf => absurd hf hne.1, ?_⟩,
      ⟨fun hf => absurd hf hne.2, fun hv => absurd hv.1 hlong⟩, ?_⟩
    · rintro ⟨m, -, hm⟩
      exact absurd ⟨_, hm⟩ hlong
    · intro _ _
      have htake : (u ++ t :: r).take (u.length + 1) = u ++ [t] := by
        simp [List.take_append, List.take_of_length_le]
      refine ⟨u.length, t, by simp, by simpa using hwait.viable, by rwa [htake], ?_, ?_, ?_, ?_⟩
      · rintro rfl
        cases x <;> rfl
      · rintro name rfl - hop
        rw [hp.eq_operand (by simpa using hop)]
        rfl
      · intro ht hword
        rw [fault_cons_eq hwait hb ht (by simpa using hword)]
        exact ⟨rfl, message_unexpectedToken t⟩
      · intro r'
        rw [htake, List.append_assoc]
        exact hp.eq_error hb r'

/-- A function without its parenthesis is at fault at the token in its place. -/
theorem fault_sqrt_two :
    Expr.ofTokens [.openParen, .word "sqrt", .num 2, .closeParen] =
      .error (.unexpectedToken (.num 2)) ∧
    ∃ k t, [Token.openParen, .word "sqrt", .num 2, .closeParen][k]? = some t ∧
      Viable ([.openParen, .word "sqrt", .num 2, .closeParen].take k) ∧
      ¬Viable ([.openParen, .word "sqrt", .num 2, .closeParen].take (k + 1)) ∧
      ∀ r, Expr.ofTokens ([.openParen, .word "sqrt", .num 2, .closeParen].take (k + 1) ++ r) =
        .error (.unexpectedToken (.num 2)) := by
  have h : Expr.ofTokens [.openParen, .word "sqrt", .num 2, .closeParen] =
      .error (.unexpectedToken (.num 2)) := rfl
  obtain ⟨-, -, hdead⟩ := fault_at_first_dead_token (by simp) h (fun _ hf => Fault.noConfusion hf)
  obtain ⟨k, t, hk, hv, hd, -, -, -, hr⟩ :=
    hdead (fun hf => Fault.noConfusion hf) (fun hf => Fault.noConfusion hf)
  exact ⟨h, k, t, hk, hv, hd, hr⟩

end SciCalc.Grammar
