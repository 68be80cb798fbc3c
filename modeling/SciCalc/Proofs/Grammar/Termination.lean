import SciCalc.Proofs.Grammar.Parser
import SciCalc.Proofs.Grammar.Reading

namespace SciCalc

open Grammar (Layer)

/-- The node knows its height, which is within the limit. -/
def Node.Measured (a : Node) : Prop := a.height = a.expr.height ∧ a.height ≤ maxHeight

namespace Parser

/-- The counter is neither below its value `d` at the start nor above the one that is refused, and a
tree that is refused is too tall by one node. -/
def Event.Within (d : Nat) : Event → Prop
  | level n => d ≤ n ∧ n ≤ maxDepth + 1
  | tree e => e.height ≤ maxHeight + 1

theorem Event.Within.mono {d d' : Nat} {e : Event} (h : e.Within d') (hd : d ≤ d') :
    e.Within d := by
  cases e with
  | level n => exact ⟨Nat.le_trans hd h.1, h.2⟩
  | tree e => exact h

/-- How far above its value at the start the counter is left. -/
def overshoot : Except Fault Node → Nat
  | .ok _ => 0
  | .error f => if f = .tooDeep maxDepth then 1 else 0

theorem overshoot_le_one (outcome : Except Fault Node) : overshoot outcome ≤ 1 := by
  cases outcome with
  | ok a => exact Nat.zero_le _
  | error f =>
    simp only [overshoot]
    split <;> decide

/-- What a run comes to, as far as it does not depend on where in the tokens it starts. -/
structure Report where
  outcome : Except Fault Node
  /-- The number of tokens that are passed. -/
  taken : Nat
  /-- The counter at the end. -/
  depth : Nat
  events : List Event

/-- The state that the run leaves of `p`. -/
def Report.after (r : Report) (p : Parser) : Parser :=
  { p with pos := p.pos + r.taken, depth := r.depth, trace := p.trace ++ r.events }

/-- The report of a run at the depth `d` that reads `y` from `ts`, and if that is a tree then from
`least` tokens or more. -/
structure Report.Sound (r : Report) (least d : Nat) (ts : List Token)
    (y : Except Fault (Node × List Token)) : Prop where
  read : y = r.outcome.map fun a => (a, ts.drop r.taken)
  taken_le : r.taken ≤ ts.length
  depth_eq : r.depth = d + overshoot r.outcome
  within : ∀ e ∈ r.events, e.Within d
  measured : ∀ a, r.outcome = .ok a → a.Measured ∧ least ≤ r.taken

theorem Report.Sound.at_after {r : Report} {least d : Nat} {ts : List Token}
    {y : Except Fault (Node × List Token)} (hr : r.Sound least d ts y) {a : Node}
    (ha : r.outcome = .ok a) {p : Parser} (hp : p.At d ts) :
    (r.after p).At d (ts.drop r.taken) := by
  have hd : r.depth = d := by
    rw [hr.depth_eq, ha]
    rfl
  rw [Report.after, hd]
  exact hp.drop hr.taken_le _

/-- The report of two runs, the second from where the first ends. -/
def Report.append (r s : Report) : Report :=
  ⟨s.outcome, r.taken + s.taken, s.depth, r.events ++ s.events⟩

theorem Report.after_append (r s : Report) (p : Parser) :
    (r.append s).after p = s.after (r.after p) := by
  simp [append, after, Nat.add_assoc]

theorem Report.Sound.append {r s : Report} {least d : Nat} {ts : List Token}
    {y z : Except Fault (Node × List Token)} (hr : r.Sound least d ts y) {a : Node}
    (ha : r.outcome = .ok a) (hs : s.Sound 0 d (ts.drop r.taken) z) :
    (r.append s).Sound least d ts z where
  read := by
    rw [hs.read, List.drop_drop]
    rfl
  taken_le := by
    have hr := hr.taken_le
    have hs := hs.taken_le
    rw [List.length_drop] at hs
    simp only [Report.append]
    omega
  depth_eq := hs.depth_eq
  within := by
    intro e he
    obtain he | he := List.mem_append.mp he
    · exact hr.within e he
    · exact hs.within e he
  measured := by
    intro b hb
    exact ⟨(hs.measured b hb).1, Nat.le_add_right_of_le (hr.measured a ha).2⟩

/-- From all states at the depth `d` in front of `ts` the action comes to the same end, in which it
has read `y`. -/
def Runs (least : Nat) (x : Action Node) (d : Nat) (ts : List Token)
    (y : Except Fault (Node × List Token)) :
    Prop :=
  ∃ r : Report, r.Sound least d ts y ∧ ∀ p, p.At d ts → x.run.run p = some (r.outcome, r.after p)

section
variable {least d : Nat} {x x' : Action Node} {ts : List Token} {t : Token}
  {y : Except Fault (Node × List Token)}

theorem Runs.congr (h : Runs least x' d ts y) (hx : ∀ p, p.At d ts → x.run.run p = x'.run.run p) :
    Runs least x d ts y := by
  obtain ⟨r, hr, hrun⟩ := h
  exact ⟨r, hr, fun p hp => (hx p hp).trans (hrun p hp)⟩

theorem Runs.weaken (h : Runs least x d ts y) : Runs 0 x d ts y := by
  obtain ⟨r, hr, hrun⟩ := h
  exact ⟨r, { hr with measured := fun a ha => ⟨(hr.measured a ha).1, Nat.zero_le _⟩ }, hrun⟩

/-- A fault may leave all tokens. -/
theorem Runs.of_error {f : Fault} (h : Runs 0 x d ts (.error f)) :
    Runs least x d ts (.error f) := by
  obtain ⟨r, hr, hrun⟩ := h
  refine ⟨r, { hr with measured := ?_ }, hrun⟩
  intro a ha
  have hread := hr.read
  rw [ha] at hread
  cases hread

/-- A run that leaves position and counter. -/
theorem runs_in_place (outcome : Except Fault Node) (events : List Event)
    (hd : overshoot outcome = 0) (hw : ∀ e ∈ events, e.Within d)
    (hm : ∀ a, outcome = .ok a → a.Measured)
    (hx : ∀ p, p.At d ts → x.run.run p = some (outcome, { p with trace := p.trace ++ events })) :
    Runs 0 x d ts (outcome.map fun a => (a, ts)) := by
  refine ⟨⟨outcome, 0, d, events⟩, ⟨rfl, Nat.zero_le _, by rw [hd]; rfl, hw, ?_⟩, ?_⟩
  · intro a ha
    exact ⟨hm a ha, Nat.le_refl _⟩
  · intro p hp
    rw [hx p hp]
    obtain ⟨rfl, -, -⟩ := hp
    rfl

theorem runs_pure {a : Node} (ha : a.Measured) : Runs 0 (pure a) d ts (.ok (a, ts)) := by
  refine runs_in_place (.ok a) [] rfl (by simp) ?_ ?_
  · rintro _ ⟨⟩
    exact ha
  · intro p _
    rw [List.append_nil]
    rfl

theorem runs_throw {f : Fault} (hf : f ≠ .tooDeep maxDepth) :
    Runs least (throw f) d ts (.error f) := by
  refine (runs_in_place (.error f) [] (if_neg hf) (by simp) (by simp) ?_).of_error
  intro p _
  rw [List.append_nil]
  rfl

theorem runs_stuck (us : List Token) :
    Runs least (stuck us.head?) d ts (.error (Phrase.stuck us)) := by
  have hstuck : Phrase.stuck us.head?.toList = Phrase.stuck us ∧
      Phrase.stuck us ≠ .tooDeep maxDepth := by
    obtain - | ⟨u, us⟩ := us
    · simp [Phrase.stuck]
    · cases u <;> simp [Phrase.stuck]
  rw [stuck, hstuck.1]
  exact runs_throw hstuck.2

theorem runs_leaf (x : Float) : Runs 0 (leaf x) d ts (.ok (.lit x, ts)) := by
  refine runs_in_place (.ok (.lit x)) [.tree (.lit x)] rfl ?_ ?_ fun _ _ => rfl
  · simp [Event.Within, Expr.height]
  · rintro _ ⟨⟩
    exact ⟨rfl, (by decide : 1 ≤ maxHeight)⟩

theorem runs_root {below : Nat} {e : Expr} (he : e.height = below + 1) (hb : below ≤ maxHeight) :
    Runs 0 (root below e) d ts (do return (← Node.above below e, ts)) := by
  have hmap : (do return (← Node.above below e, ts)) = (Node.above below e).map fun a =>
      (a, ts) := by
    cases Node.above below e <;> rfl
  rw [hmap]
  refine runs_in_place _ [.tree e] ?_ ?_ ?_ ?_
  · unfold Node.above
    split <;> rfl
  · simp [Event.Within]
    omega
  · intro a ha
    obtain ⟨hlt, rfl⟩ := Node.above_eq_ok ha
    exact ⟨he.symm, hlt⟩
  · intro p _
    unfold root Node.above
    split <;> rfl

/-- A level is what is read within it, with the counter raised before and lowered after. -/
theorem Runs.level
    (h : Runs least (do
      if ← accept .minus then
        let a ← call .signed
        root a.height (.neg a.expr)
      else if ← accept .plus then call .signed
      else call .power) (d + 1) ts y)
    (hd : d < maxDepth) : Runs least (call .signed) d ts y := by
  obtain ⟨r, hr, hrun⟩ := h
  have hdepth := hr.depth_eq
  have hone := overshoot_le_one r.outcome
  refine ⟨⟨r.outcome, r.taken, r.depth - 1, .level (d + 1) :: (r.events ++ [.level (r.depth - 1)])⟩,
    ⟨hr.read, hr.taken_le, ?_, ?_, hr.measured⟩, ?_⟩
  · simp only
    omega
  · simp only [List.mem_cons, List.mem_append, List.not_mem_nil, or_false]
    rintro e (rfl | he | rfl)
    · exact ⟨Nat.le_succ d, by omega⟩
    · exact (hr.within e he).mono (Nat.le_succ d)
    · exact ⟨by omega, by omega⟩
  · intro p hp
    have hin := hrun _ (hp.setDepth (d + 1))
    obtain ⟨rfl, -, -⟩ := hp
    rw [run_signed, if_neg (by omega), hin]
    simp [Report.after, setDepth]

/-- The one action reads in front of what the other leaves. -/
theorem Runs.bind {k : Node → Action Node}
    {h : Node × List Token → Except Fault (Node × List Token)} (hx : Runs least x d ts y)
    (hk : ∀ a rest, y = .ok (a, rest) → a.Measured → rest.length + least ≤ ts.length →
      Runs 0 (k a) d rest (h (a, rest))) :
    Runs least (x >>= k) d ts (y >>= h) := by
  obtain ⟨r, hr, hrun⟩ := hx
  have hread := hr.read
  have hlen := hr.taken_le
  cases ho : r.outcome with
  | error f =>
    rw [ho] at hread
    refine ⟨r, ⟨?_, hlen, hr.depth_eq, hr.within, hr.measured⟩, fun p hp => ?_⟩
    · rw [hread, ho]
      rfl
    · have hp := hrun p hp
      rw [ho] at hp ⊢
      exact run_bind_of_error hp
  | ok a =>
    rw [ho] at hread
    obtain ⟨ha, hleast⟩ := hr.measured a ho
    obtain ⟨s, hs, hsrun⟩ := hk a (ts.drop r.taken) hread ha (by rw [List.length_drop]; omega)
    rw [hread]
    refine ⟨r.append s, hr.append ho hs, fun p hp => ?_⟩
    have hfirst := hrun p hp
    rw [ho] at hfirst
    rw [run_bind_of_ok hfirst, hsrun _ (hr.at_after ho hp), Report.after_append]
    rfl

/-- Where the next token is passed before all else, it is one more that is taken. -/
theorem Runs.of_skip (h : Runs 0 x' d ts y)
    (hx : ∀ p, p.At d (t :: ts) → x.run.run p = x'.run.run p.skip) :
    Runs 1 x d (t :: ts) y := by
  obtain ⟨r, hr, hrun⟩ := h
  refine ⟨{ r with taken := r.taken + 1 },
    ⟨hr.read, Nat.succ_le_succ hr.taken_le, hr.depth_eq, hr.within, ?_⟩, ?_⟩
  · intro a ha
    exact ⟨(hr.measured a ha).1, Nat.succ_le_succ (Nat.zero_le _)⟩
  · intro p hp
    rw [hx p hp, hrun _ hp.skip]
    simp [Report.after, Parser.skip, Nat.add_assoc, Nat.add_comm 1]

theorem Runs.skip {k : Unit → Action Node} (h : Runs 0 (k ()) d ts y) :
    Runs 1 (modify Parser.skip >>= k) d (t :: ts) y :=
  h.of_skip fun _ _ => run_bind_of_ok rfl

theorem Runs.advance {k : Option Token → Action Node} (h : Runs 0 (k (some t)) d ts y) :
    Runs 1 (Parser.advance >>= k) d (t :: ts) y :=
  h.of_skip fun _ hp => run_bind_of_ok hp.run_advance

theorem Runs.advance_nil {k : Option Token → Action Node} (h : Runs least (k none) d [] y) :
    Runs least (Parser.advance >>= k) d [] y :=
  h.congr fun _ hp => run_bind_of_ok hp.run_advance

theorem Runs.accept {k : Bool → Action Node} (h : Runs 0 (k true) d ts y) :
    Runs 1 (Parser.accept t >>= k) d (t :: ts) y :=
  h.of_skip fun _ hp => run_bind_of_ok hp.run_accept

theorem Runs.accept_of_ne {k : Bool → Action Node} (ht : ts.head? ≠ some t)
    (h : Runs least (k false) d ts y) :
    Runs least (Parser.accept t >>= k) d ts y :=
  h.congr fun _ hp => run_bind_of_ok (hp.run_accept_of_ne ht)

theorem Runs.next? {k : Option Token → Action Node} (h : Runs least (k ts.head?) d ts y) :
    Runs least (Parser.next? >>= k) d ts y :=
  h.congr fun _ hp => run_bind_of_ok hp.run_next?

theorem Runs.root_bind {below : Nat} {e : Expr} {k : Node → Action Node}
    {h : Node → Except Fault (Node × List Token)} (he : e.height = below + 1)
    (hb : below ≤ maxHeight) (hk : ∀ a, a.Measured → Runs 0 (k a) d ts (h a)) :
    Runs 0 (root below e >>= k) d ts (Node.above below e >>= h) := by
  have hbind : Node.above below e >>= h =
      (do return (← Node.above below e, ts)) >>= fun found => h found.1 := by
    cases Node.above below e <;> rfl
  rw [hbind]
  refine (runs_root he hb).bind fun a rest hy ha _ => ?_
  obtain ⟨b, -, hb⟩ := Grammar.exists_of_bind_eq_ok hy
  cases hb
  exact hk a ha

end

section
variable {d : Nat} {operand : Phrase}

theorem runs_rest {l : Layer} (hop : ∀ ts, Runs 1 (call (.operand l)) d ts (operand ts))
    {left : Node} (hl : left.Measured) (ts : List Token) :
    Runs 0 (call (.rest l left)) d ts (Phrase.chain l.op? operand left ts) := by
  -- every operator takes a token away
  induction hn : ts.length using Nat.strongRecOn generalizing left ts with
  | ind n ih =>
    rw [call]
    refine .next? ?_
    cases ts with
    | nil =>
      rw [Phrase.chain_nil]
      exact runs_pure hl
    | cons t ts =>
      rw [List.head?_cons, Option.bind_some]
      cases ho : l.op? t with
      | none =>
        rw [Phrase.chain_of_none ho]
        exact runs_pure hl
      | some op =>
        rw [Phrase.chain_of_some ho]
        refine Runs.weaken (.skip ((hop ts).bind fun right rest _ hr hlen => ?_).weaken)
        refine .root_bind ?_ (Nat.max_le.2 ⟨hl.2, hr.2⟩) fun whole hwhole => ?_
        · rw [Expr.height, hl.1, hr.1]
        · rw [List.length_cons] at hn
          exact ih _ (by omega) hwhole rest rfl

theorem runs_chain {l : Layer} (hop : ∀ ts, Runs 1 (call (.operand l)) d ts (operand ts))
    (ts : List Token) :
    Runs 1 (call (.chain l)) d ts
      (do let (left, rest) ← operand ts; Phrase.chain l.op? operand left rest) := by
  rw [call]
  exact (hop ts).bind fun left rest _ hl _ => runs_rest hop hl rest

theorem runs_bangs {a : Node} (ha : a.Measured) (ts : List Token) :
    Runs 0 (call (.bangs a)) d ts (Phrase.bangs a ts) := by
  induction ts generalizing a with
  | nil =>
    rw [call]
    exact .accept_of_ne (by simp) (runs_pure ha)
  | cons t ts ih =>
    rw [call]
    cases t with
    | bang =>
      refine Runs.weaken (.accept (.root_bind ?_ ha.2 fun b hb => ih hb))
      rw [Expr.height, ha.1]
    | _ => exact .accept_of_ne (by simp) (runs_pure ha)

variable (hop : ∀ ts, Runs 1 (call .signed) d ts (operand ts))
include hop

theorem runs_sum (ts : List Token) : Runs 1 (call (.chain .sum)) d ts (Phrase.sum operand ts) :=
  runs_chain (l := .sum) (runs_chain (l := .product) hop) ts

theorem runs_bracketed (ts : List Token) :
    Runs 1 (call .bracketed) d ts (Phrase.bracketed operand ts) := by
  rw [call]
  refine (runs_sum hop ts).bind fun inside rest _ hi _ => ?_
  cases rest with
  | nil => exact .advance_nil (runs_throw (f := .unclosedParen) (by simp))
  | cons t rest =>
    cases t with
    | closeParen => exact Runs.weaken (.advance (runs_pure hi))
    | _ => exact Runs.weaken (.advance (runs_stuck (_ :: rest)))

theorem runs_primary (ts : List Token) :
    Runs 1 (call .primary) d ts (Phrase.primary operand ts) := by
  rw [call]
  cases ts with
  | nil => exact .advance_nil (runs_stuck [])
  | cons t ts =>
    cases t with
    | num x => exact .advance (runs_leaf x)
    | pi => exact .advance (runs_leaf Number.pi)
    | euler => exact .advance (runs_leaf Number.euler)
    | openParen => exact .advance (runs_bracketed hop ts).weaken
    | word name =>
      refine .advance ?_
      simp only [Phrase.primary]
      cases Func.ofName? name with
      | none => exact runs_throw (by simp)
      | some f =>
        cases ts with
        | nil => exact .accept_of_ne (by simp) (.next? (runs_stuck []))
        | cons t ts =>
          cases t with
          | openParen =>
            refine Runs.weaken
              (.accept ((runs_bracketed hop ts).bind fun a rest _ ha _ => ?_).weaken)
            refine runs_root ?_ ha.2
            rw [Expr.height, ha.1]
          | _ => exact .accept_of_ne (by simp) (.next? (runs_stuck (_ :: ts)))
    | _ => exact .advance (runs_stuck (_ :: ts))

theorem runs_factorial (ts : List Token) :
    Runs 1 (call .factorial) d ts (Phrase.factorial operand ts) := by
  rw [call]
  exact (runs_primary hop ts).bind fun a rest _ ha _ => runs_bangs ha rest

theorem runs_power (ts : List Token) : Runs 1 (call .power) d ts (Phrase.power operand ts) := by
  rw [call]
  refine (runs_factorial hop ts).bind fun base rest _ hb _ => ?_
  cases rest with
  | nil => exact .accept_of_ne (by simp) (runs_pure hb)
  | cons t rest =>
    cases t with
    | caret =>
      refine Runs.weaken (.accept ((hop rest).bind fun exponent rest _ he _ => ?_).weaken)
      refine runs_root ?_ (Nat.max_le.2 ⟨hb.2, he.2⟩)
      rw [Expr.height, hb.1, he.1]
    | _ => exact .accept_of_ne (by simp) (runs_pure hb)

end

/-- What the counter of the parser leaves of the limit is the depth of the reader. -/
theorem runs_signed {levels d : Nat} (hd : d + levels = maxDepth) (ts : List Token) :
    Runs 1 (call .signed) d ts (Phrase.signed levels ts) := by
  induction levels generalizing d ts with
  | zero =>
    refine ⟨⟨.error (.tooDeep maxDepth), 0, d + 1, [.level (d + 1)]⟩,
      ⟨rfl, Nat.zero_le _, rfl, ?_, by simp⟩, ?_⟩
    · simp only [List.mem_singleton, forall_eq]
      exact ⟨Nat.le_succ d, by omega⟩
    · intro p hp
      obtain ⟨rfl, -, -⟩ := hp
      rw [run_signed, if_pos (by omega)]
      rfl
  | succ levels ih =>
    have hop : ∀ ts, Runs 1 (call .signed) (d + 1) ts (Phrase.signed levels ts) :=
      fun ts => ih (by omega) ts
    refine Runs.level ?_ (by omega)
    cases ts with
    | nil => exact .accept_of_ne (by simp) (.accept_of_ne (by simp) (runs_power hop []))
    | cons t ts =>
      cases t with
      | minus =>
        refine .accept ((hop ts).bind fun a rest _ ha _ => runs_root ?_ ha.2).weaken
        rw [Expr.height, ha.1]
      | plus => exact .accept_of_ne (by simp) (.accept (hop ts).weaken)
      | _ => exact .accept_of_ne (by simp) (.accept_of_ne (by simp) (runs_power hop (_ :: ts)))

theorem runs_call (routine : Routine) (hroutine : routine.Starts) {d : Nat} (hd : d ≤ maxDepth)
    (ts : List Token) :
    Runs 1 (call routine) d ts (routine.phrase (Phrase.signed (maxDepth - d)) ts) := by
  have hop : ∀ ts, Runs 1 (call .signed) d ts (Phrase.signed (maxDepth - d) ts) :=
    runs_signed (by omega)
  cases routine with
  | chain l =>
    cases l with
    | sum => exact runs_sum hop ts
    | product => exact runs_chain (l := .product) hop ts
  | signed => exact hop ts
  | power => exact runs_power hop ts
  | factorial => exact runs_factorial hop ts
  | primary => exact runs_primary hop ts
  | bracketed => exact runs_bracketed hop ts
  | rest | bangs => exact hroutine.elim

/-- The parser gives every list of tokens the tree, or the fault, that the reader gives it. -/
theorem tree_eq (ts : List Token) : tree ts = some (Expr.ofTokens ts) := by
  cases ts with
  | nil => rfl
  | cons t ts =>
    have hp : At 0 (t :: ts) ⟨t :: ts, 0, 0, []⟩ := ⟨rfl, Nat.zero_le _, rfl⟩
    obtain ⟨r, hr, hrun⟩ := runs_call (.chain .sum) trivial (Nat.zero_le maxDepth) (t :: ts)
    have hread : Phrase.sum (Phrase.signed maxDepth) (t :: ts) = _ := hr.read
    rw [Grammar.ofTokens_of_ne_nil (List.cons_ne_nil t ts), hread]
    change (whole.run.run ⟨t :: ts, 0, 0, []⟩).map (·.1) = _
    have hsum := hrun _ hp
    cases ho : r.outcome with
    | error f =>
      rw [ho] at hsum
      rw [whole, run_bind_of_error hsum]
      rfl
    | ok a =>
      rw [ho] at hsum
      rw [whole, run_bind_of_ok hsum, run_bind_of_ok (hr.at_after ho hp).run_next?]
      change _ = some (if (List.drop r.taken (t :: ts)).isEmpty then _ else _)
      cases List.drop r.taken (t :: ts) with
      | nil => rfl
      | cons u us => cases u <;> rfl

/-- From every state within the limits every routine comes to an end, and reads what the reader of
its phrase reads. For a tree it has passed a token or more, and the counter is what it was. On the
way, be it to a fault, the counter and the trees pass their limits by one at the most. From another
state with the same counter and the same tokens in front of it, whatever stands before them, the
routine does the same. -/
theorem call_within_limits (routine : Routine) (hroutine : routine.Starts) (p : Parser)
    (hpos : p.pos ≤ p.tokens.length) (hdepth : p.depth ≤ maxDepth) :
    ∃ outcome q events,
      (call routine).run.run p = some (outcome, q) ∧
      q.tokens = p.tokens ∧ q.trace = p.trace ++ events ∧ p.pos ≤ q.pos ∧ q.pos ≤ p.tokens.length ∧
      (∀ a, outcome = .ok a →
        p.pos < q.pos ∧ q.depth = p.depth ∧ a.height = a.expr.height ∧ a.height ≤ maxHeight) ∧
      (∀ f, outcome = .error f → q.depth = if f = .tooDeep maxDepth then p.depth + 1 else p.depth) ∧
      (∀ n, .level n ∈ events → p.depth ≤ n ∧ n ≤ maxDepth + 1) ∧
      (∀ e, .tree e ∈ events → e.height ≤ maxHeight + 1) ∧
      routine.phrase (Phrase.signed (maxDepth - p.depth)) p.ahead =
        outcome.map (fun a => (a, q.ahead)) ∧
      ∀ p' : Parser, p'.pos ≤ p'.tokens.length → p'.depth = p.depth → p'.ahead = p.ahead →
        (call routine).run.run p' = some (outcome,
          { p' with
            pos := p'.pos + (q.pos - p.pos)
            depth := q.depth
            trace := p'.trace ++ events }) := by
  obtain ⟨r, hr, hrun⟩ := runs_call routine hroutine hdepth p.ahead
  have htaken := hr.taken_le
  rw [ahead, List.length_drop] at htaken
  refine ⟨r.outcome, r.after p, r.events, hrun p ⟨rfl, hpos, rfl⟩, rfl, rfl, Nat.le_add_right _ _,
    ?_, ?_, ?_, ?_, ?_, ?_, ?_⟩
  · simp only [Report.after]
    omega
  · intro a ha
    obtain ⟨hm, hpassed⟩ := hr.measured a ha
    refine ⟨Nat.lt_add_of_pos_right hpassed, ?_, hm⟩
    rw [Report.after, hr.depth_eq, ha]
    rfl
  · intro f hf
    rw [Report.after, hr.depth_eq, hf]
    simp only [overshoot]
    split <;> rfl
  · intro n hn
    exact hr.within _ hn
  · intro e he
    exact hr.within _ he
  · rw [hr.read]
    simp [Report.after, ahead]
  · intro p' hpos' hdepth' hahead
    rw [hrun p' ⟨hdepth', hpos', hahead⟩]
    simp [Report.after]

/-- The sign of the exponent is on the last level that is allowed. -/
theorem call_within_limits_negative_power :
    let p : Parser :=
      ⟨[.closeParen, .minus, .num 2, .bang, .caret, .minus, .num 3, .closeParen], 1, 252, []⟩
    Routine.signed.Starts ∧ p.pos ≤ p.tokens.length ∧ p.depth ≤ maxDepth ∧
    ∃ a q, (call .signed).run.run p = some (.ok a, q) ∧ q.ahead = [.closeParen] ∧ q.depth = 252 ∧
      a.expr = .neg (.binary .pow (.factorial (.lit 2)) (.neg (.lit 3))) ∧ a.height = 4 := by
  intro p
  have hpos : p.pos ≤ p.tokens.length := by decide
  have hdepth : p.depth ≤ maxDepth := by decide
  obtain ⟨outcome, q, _, hrun, _, _, _, _, hok, _, _, _, hread, _⟩ :=
    call_within_limits .signed trivial p hpos hdepth
  have hphrase : Routine.signed.phrase (Phrase.signed (maxDepth - p.depth)) p.ahead =
      .ok (⟨.neg (.binary .pow (.factorial (.lit 2)) (.neg (.lit 3))), 4⟩, [.closeParen]) := rfl
  rw [hphrase] at hread
  cases outcome with
  | error f => cases hread
  | ok a =>
    obtain ⟨ha, hq⟩ := Prod.mk.inj (Except.ok.inj hread)
    subst ha
    exact ⟨trivial, hpos, hdepth, _, q, hrun, hq.symm, (hok _ rfl).2.1, rfl, rfl⟩

end Parser

end SciCalc
