import Mathlib.Data.List.Basic
import Mathlib.Order.Basic

/-!
Double brackets in marked text.

A text is read from the left: two live opening symbols begin a link, the next two live closing
symbols before the line stops end it, and whatever begins no link is a symbol of its own. Which
symbols are live is told by a marker that is outside after every live symbol.

- `text_pieces`: the pieces of a text are the text;
- `pieces_append_stop`: a text is read line by line;
- `pieces_rewrite`: when links are given other safe contents, the line that is written is read as
  the links that were meant.
-/

namespace Softfig.Lib

universe u v

/-- A symbol or a bracketed content. -/
inductive Piece (α : Type u) where
  | symbol (a : α)
  | link (inner : List α)
  deriving DecidableEq

namespace Piece

variable {α : Type u}

def map (f : List α → List α) : Piece α → Piece α
  | symbol a => symbol a
  | link inner => link (f inner)

def inner? : Piece α → Option (List α)
  | symbol _ => none
  | link inner => some inner

end Piece

/-- The opening and closing symbols, which come in twos, and the one that ends a line. -/
structure Brackets (α : Type u) where
  opening : α
  closing : α
  stop : α
  opening_ne : opening ≠ stop
  closing_ne : closing ≠ stop

namespace Brackets

variable {α : Type u} [DecidableEq α] (b : Brackets α)

/-- The content before the next two live closing symbols of the line. -/
def findClose : List (α × Bool) → Option (List α)
  | [] => none
  | (x, live) :: rest =>
    if x = b.stop then none
    else if x = b.closing ∧ live = true ∧ rest.head? = some (b.closing, true) then some []
    else (findClose rest).map (x :: ·)

/-- The content of a link that begins here. -/
def opened : List (α × Bool) → Option (List α)
  | [] => none
  | (x, live) :: rest =>
    if x = b.opening ∧ live = true ∧ rest.head? = some (b.opening, true) then b.findClose rest.tail
    else none

/-- The pieces after some symbols that are passed over. -/
def pieces : Nat → List (α × Bool) → List (Piece α)
  | _, [] => []
  | skip + 1, _ :: rest => pieces skip rest
  | 0, x :: rest =>
    match b.opened (x :: rest) with
    | some inner => .link inner :: pieces (inner.length + 3) rest
    | none => .symbol x.1 :: pieces 0 rest

def text : Piece α → List α
  | .symbol a => [a]
  | .link inner => b.opening :: b.opening :: (inner ++ [b.closing, b.closing])

def write (ps : List (Piece α)) : List α := ps.flatMap b.text

def symbols (m : List (α × Bool)) : List (Piece α) := m.map fun x => .symbol x.1

variable {b} {m rest : List (α × Bool)} {inner : List α} {x : α × Bool}

omit [DecidableEq α] in
@[simp]
theorem write_nil : b.write [] = [] := rfl

omit [DecidableEq α] in
@[simp]
theorem write_cons (p : Piece α) (ps : List (Piece α)) :
    b.write (p :: ps) = b.text p ++ b.write ps := List.flatMap_cons

omit [DecidableEq α] in
theorem write_append (ps qs : List (Piece α)) : b.write (ps ++ qs) = b.write ps ++ b.write qs :=
  List.flatMap_append

omit [DecidableEq α] in
theorem write_symbols : b.write (symbols m) = m.map Prod.fst := by
  induction m with
  | nil => rfl
  | cons x m ih =>
    rw [List.map_cons, ← ih]
    rfl

omit [DecidableEq α] in
theorem write_map_symbol (t : List α) : b.write (t.map Piece.symbol) = t := by
  induction t with
  | nil => rfl
  | cons a t ih =>
    rw [List.map_cons, write_cons, ih]
    rfl

omit [DecidableEq α] in
theorem map_symbols (f : List α → List α) : (symbols m).map (Piece.map f) = symbols m := by
  rw [symbols, List.map_map]
  rfl

/-! ### Closing -/

theorem findClose_eq_some (h : b.findClose m = some inner) :
    inner.length + 2 ≤ m.length ∧
      m.map Prod.fst = inner ++ b.closing :: b.closing ::
        (m.drop (inner.length + 2)).map Prod.fst := by
  induction m generalizing inner with
  | nil => cases h
  | cons x rest ih =>
    obtain ⟨x, live⟩ := x
    simp only [findClose] at h
    split_ifs at h with hstop hclose
    · cases h
      obtain ⟨rfl, -, hhead⟩ := hclose
      obtain ⟨more, rfl⟩ := List.head?_eq_some_iff.mp hhead
      simp
    · obtain ⟨inner', hinner, rfl⟩ := Option.map_eq_some_iff.mp h
      obtain ⟨hlength, htext⟩ := ih hinner
      refine ⟨by simpa using hlength, ?_⟩
      rw [List.map_cons, htext]
      rfl

theorem opened_eq_some (h : b.opened (x :: rest) = some inner) :
    x = (b.opening, true) ∧ rest.head? = some (b.opening, true) ∧
      b.findClose rest.tail = some inner := by
  obtain ⟨x, live⟩ := x
  simp only [opened] at h
  split_ifs at h with hopen
  obtain ⟨rfl, rfl, hhead⟩ := hopen
  exact ⟨rfl, hhead, h⟩

theorem findClose_tail (hstop : x.1 ≠ b.stop) (h : b.findClose (x :: rest) = none) :
    b.findClose rest = none := by
  obtain ⟨x, live⟩ := x
  simp only [findClose, if_neg hstop] at h
  split_ifs at h
  exact Option.map_eq_none_iff.mp h

theorem findClose_append_stop (h : b.stop ∉ m.map Prod.fst) (live : Bool) :
    b.findClose (m ++ (b.stop, live) :: rest) = b.findClose m := by
  induction m with
  | nil => simp [findClose]
  | cons x m ih =>
    obtain ⟨x, live'⟩ := x
    rw [List.map_cons, List.mem_cons, not_or] at h
    have hhead : (m ++ (b.stop, live) :: rest).head? = some (b.closing, true) ↔
        m.head? = some (b.closing, true) := by
      cases m with
      | nil => simp [b.closing_ne.symm]
      | cons y m => simp
    simp only [List.cons_append, findClose, ih h.2, hhead]

theorem opened_append_stop (h : b.stop ∉ (x :: m).map Prod.fst) (live : Bool) :
    b.opened (x :: (m ++ (b.stop, live) :: rest)) = b.opened (x :: m) := by
  obtain ⟨x, live'⟩ := x
  cases m with
  | nil => simp [opened, b.opening_ne.symm]
  | cons y m =>
    simp only [List.map_cons, List.mem_cons, not_or] at h
    rw [opened, opened, List.cons_append, List.tail_cons, List.tail_cons,
      findClose_append_stop h.2.2 live]
    rfl

/-! ### Pieces -/

theorem pieces_drop (skip : Nat) (m : List (α × Bool)) :
    b.pieces skip m = b.pieces 0 (m.drop skip) := by
  induction m generalizing skip with
  | nil => cases skip <;> rfl
  | cons x m ih =>
    cases skip with
    | zero => rfl
    | succ skip => exact ih skip

theorem pieces_link (h : b.opened (x :: rest) = some inner) :
    b.pieces 0 (x :: rest) = .link inner :: b.pieces 0 (rest.drop (inner.length + 3)) := by
  rw [pieces, h]
  simp only [pieces_drop (inner.length + 3)]

theorem pieces_symbol (h : b.opened (x :: rest) = none) :
    b.pieces 0 (x :: rest) = .symbol x.1 :: b.pieces 0 rest := by
  rw [pieces, h]

/-- **The pieces of a text are the text.** -/
theorem text_pieces (m : List (α × Bool)) : b.write (b.pieces 0 m) = m.map Prod.fst := by
  induction hn : m.length using Nat.strongRecOn generalizing m with
  | ind n ih =>
    cases m with
    | nil => rfl
    | cons x rest =>
      cases hopened : b.opened (x :: rest) with
      | none =>
        rw [pieces_symbol hopened, write_cons, ih rest.length (by simp [← hn]) rest rfl]
        rfl
      | some inner =>
        obtain ⟨rfl, hhead, hclose⟩ := opened_eq_some hopened
        obtain ⟨more, rfl⟩ := List.head?_eq_some_iff.mp hhead
        obtain ⟨-, htext⟩ := findClose_eq_some hclose
        have hrest := ih ((b.opening, true) :: more |>.drop (inner.length + 3)).length
          (by simp only [List.length_drop, ← hn, List.length_cons]; omega) _ rfl
        rw [pieces_link hopened, write_cons, hrest]
        simp only [text, List.drop_succ_cons, List.map_cons, List.cons_append, List.append_assoc,
          List.nil_append]
        exact congrArg (b.opening :: b.opening :: ·) htext.symm

/-- **A text is read line by line.** -/
theorem pieces_append_stop (h : b.stop ∉ m.map Prod.fst) (live : Bool) :
    b.pieces 0 (m ++ (b.stop, live) :: rest) =
      b.pieces 0 m ++ .symbol b.stop :: b.pieces 0 rest := by
  induction hn : m.length using Nat.strongRecOn generalizing m with
  | ind n ih =>
    cases m with
    | nil =>
      have hnone : b.opened ((b.stop, live) :: rest) = none := by
        simp [opened, b.opening_ne.symm]
      exact pieces_symbol hnone
    | cons x m =>
      have hopen : b.opened (x :: (m ++ (b.stop, live) :: rest)) = b.opened (x :: m) :=
        opened_append_stop h live
      have hm : b.stop ∉ m.map Prod.fst := fun hmem => h (List.mem_cons_of_mem _ hmem)
      cases hopened : b.opened (x :: m) with
      | none =>
        rw [hopened] at hopen
        rw [List.cons_append, pieces_symbol hopen, pieces_symbol hopened,
          ih m.length (by simp [← hn]) hm rfl]
        rfl
      | some inner =>
        rw [hopened] at hopen
        obtain ⟨-, hhead, hclose⟩ := opened_eq_some hopened
        obtain ⟨more, rfl⟩ := List.head?_eq_some_iff.mp hhead
        have hlength : inner.length + 3 ≤ ((b.opening, true) :: more).length := by
          have hle := (findClose_eq_some hclose).1
          simp only [List.tail_cons] at hle
          simp only [List.length_cons]
          omega
        have hdrop : b.stop ∉
            (((b.opening, true) :: more).drop (inner.length + 3)).map Prod.fst := fun hmem =>
          hm (List.map_subset _ (List.drop_subset _ _) hmem)
        rw [List.cons_append, pieces_link hopen, pieces_link hopened,
          List.drop_append_of_le_length hlength,
          ih _ (by simp only [List.length_drop, ← hn, List.length_cons]; omega) hdrop rfl]
        rfl

/-- Where nothing is live, there is no link. -/
theorem pieces_dead (h : ∀ x ∈ m, x.2 = false) : b.pieces 0 m = symbols m := by
  induction m with
  | nil => rfl
  | cons x m ih =>
    obtain ⟨hx, hm⟩ := List.forall_mem_cons.mp h
    have hnone : b.opened (x :: m) = none := by
      obtain ⟨x, live⟩ := x
      obtain rfl : live = false := hx
      simp [opened]
    rw [pieces_symbol hnone, ih hm]
    rfl

/-- Where nothing closes, there is no link. -/
theorem pieces_unclosed (hstop : b.stop ∉ m.map Prod.fst) (h : b.findClose m = none) :
    b.pieces 0 (x :: m) = symbols (x :: m) := by
  induction m generalizing x with
  | nil =>
    have hnone : b.opened [x] = none := by simp [opened]
    rw [pieces_symbol hnone]
    rfl
  | cons y m ih =>
    rw [List.map_cons, List.mem_cons, not_or] at hstop
    have htail := findClose_tail (Ne.symm hstop.1) h
    have hnone : b.opened (x :: y :: m) = none := by
      by_contra hsome
      obtain ⟨inner, hinner⟩ := Option.ne_none_iff_exists'.mp hsome
      obtain ⟨-, -, hclose⟩ := opened_eq_some hinner
      rw [List.tail_cons, htail] at hclose
      cases hclose
    rw [pieces_symbol hnone, ih hstop.2 htail]
    rfl

/-- A rewritten text begins as the text did. -/
theorem head?_write (f : List α → List α) (m : List (α × Bool)) :
    (b.write ((b.pieces 0 m).map (Piece.map f))).head? = (m.map Prod.fst).head? := by
  cases m with
  | nil => rfl
  | cons x rest =>
    cases hopened : b.opened (x :: rest) with
    | none =>
      rw [pieces_symbol hopened]
      rfl
    | some inner =>
      obtain ⟨rfl, -, -⟩ := opened_eq_some hopened
      rw [pieces_link hopened]
      rfl

/-- The two have the same symbols up to the end or to a first opening symbol. -/
theorem write_common (f : List α → List α) (m : List (α × Bool)) :
    b.write ((b.pieces 0 m).map (Piece.map f)) = m.map Prod.fst ∨
      ∃ before after after', m.map Prod.fst = before ++ b.opening :: after ∧
        b.write ((b.pieces 0 m).map (Piece.map f)) = before ++ b.opening :: after' := by
  induction m with
  | nil => exact Or.inl rfl
  | cons x rest ih =>
    cases hopened : b.opened (x :: rest) with
    | none =>
      rw [pieces_symbol hopened]
      simp only [List.map_cons, Piece.map, write_cons, text, List.cons_append, List.nil_append]
      rcases ih with hsame | ⟨before, after, after', hold, hnew⟩
      · exact Or.inl (congrArg _ hsame)
      · exact Or.inr ⟨x.1 :: before, after, after', by rw [hold]; rfl, by rw [hnew]; rfl⟩
    | some inner =>
      obtain ⟨rfl, -, -⟩ := opened_eq_some hopened
      rw [pieces_link hopened]
      exact Or.inr ⟨[], _, _, rfl, rfl⟩

/-! ### Marks from left to right -/

/-- What marks the symbols of a line. After a live symbol it is outside. -/
structure Marker (σ : Type v) (α : Type u) where
  outside : σ
  step : σ → α → σ
  live : σ → α → Bool
  step_live : ∀ s a, live s a = true → step s a = outside

namespace Marker

variable {σ : Type v} (k : Marker σ α)

def marks : σ → List α → List (α × Bool)
  | _, [] => []
  | s, a :: rest => (a, k.live s a) :: marks (k.step s a) rest

/-- The state after some symbols. -/
def run (s : σ) (line : List α) : σ := line.foldl k.step s

/-- Contents that neither close a link early nor keep its end from being live. -/
structure Safe (b : Brackets α) (content : List α) : Prop where
  closing_notMem : b.closing ∉ content
  stop_notMem : b.stop ∉ content
  closes : k.live (k.run k.outside content) b.closing = true

variable {k} {s : σ} {line content after : List α} {f : List α → List α}

omit [DecidableEq α] in
@[simp]
theorem map_fst_marks (s : σ) (line : List α) : (k.marks s line).map Prod.fst = line := by
  induction line generalizing s with
  | nil => rfl
  | cons a line ih => rw [marks, List.map_cons, ih]

omit [DecidableEq α] in
theorem marks_append (s : σ) (line rest : List α) :
    k.marks s (line ++ rest) = k.marks s line ++ k.marks (k.run s line) rest := by
  induction line generalizing s with
  | nil => rfl
  | cons a line ih =>
    rw [List.cons_append, marks, ih]
    rfl

omit [DecidableEq α] in
theorem length_marks (s : σ) (line : List α) : (k.marks s line).length = line.length := by
  rw [← List.length_map, map_fst_marks]

omit [DecidableEq α] in
theorem head?_marks {a : α} :
    (k.marks s line).head? = some (a, true) ↔ line.head? = some a ∧ k.live s a = true := by
  cases line with
  | nil => simp [marks]
  | cons c line =>
    simp only [marks, List.head?_cons, Option.some.injEq, Prod.mk.injEq]
    constructor
    · rintro ⟨rfl, hlive⟩
      exact ⟨rfl, hlive⟩
    · rintro ⟨rfl, hlive⟩
      exact ⟨rfl, hlive⟩

theorem findClose_nil (hlive : k.live s b.closing = true)
    (hagain : k.live k.outside b.closing = true) (after : List α) :
    b.findClose (k.marks s (b.closing :: b.closing :: after)) = some [] := by
  have hhead : (k.marks (k.step s b.closing) (b.closing :: after)).head? =
      some (b.closing, true) := by
    rw [k.step_live _ _ hlive]
    exact head?_marks.mpr ⟨rfl, hagain⟩
  rw [marks, findClose, if_neg b.closing_ne, if_pos ⟨rfl, hlive, hhead⟩]

/-- What closes a content closes it whatever comes after. -/
theorem findClose_marks (h : b.findClose (k.marks s line) = some content) :
    ∃ after, line = content ++ b.closing :: b.closing :: after ∧
      k.live (k.run s content) b.closing = true ∧ k.live k.outside b.closing = true ∧
      ∀ after', b.findClose (k.marks s (content ++ b.closing :: b.closing :: after')) =
        some content := by
  induction line generalizing s content with
  | nil => cases h
  | cons a line ih =>
    simp only [marks, findClose] at h
    split_ifs at h with hstop hclose
    · cases h
      obtain ⟨rfl, hlive, hhead⟩ := hclose
      rw [k.step_live _ _ hlive] at hhead
      obtain ⟨hline, hagain⟩ := head?_marks.mp hhead
      obtain ⟨after, rfl⟩ := List.head?_eq_some_iff.mp hline
      refine ⟨after, rfl, hlive, hagain, fun after' => ?_⟩
      exact findClose_nil hlive hagain after'
    · obtain ⟨content', hcontent, rfl⟩ := Option.map_eq_some_iff.mp h
      obtain ⟨after, rfl, hlive, hagain, hstable⟩ := ih hcontent
      refine ⟨after, rfl, hlive, hagain, fun after' => ?_⟩
      have hhead : (k.marks (k.step s a) (content' ++ b.closing :: b.closing :: after')).head? =
          (k.marks (k.step s a) (content' ++ b.closing :: b.closing :: after)).head? := by
        cases content' <;> rfl
      rw [List.cons_append, marks, findClose, if_neg hstop, hhead, if_neg hclose, hstable after']
      rfl

theorem findClose_safe (hclosing : b.closing ∉ content) (hstop : b.stop ∉ content)
    (hlive : k.live (k.run s content) b.closing = true)
    (hagain : k.live k.outside b.closing = true) (after : List α) :
    b.findClose (k.marks s (content ++ b.closing :: b.closing :: after)) = some content := by
  induction content generalizing s with
  | nil => exact findClose_nil hlive hagain after
  | cons a content ih =>
    rw [List.mem_cons, not_or] at hclosing hstop
    rw [List.cons_append, marks, findClose, if_neg (Ne.symm hstop.1),
      if_neg fun h => hclosing.1 h.1.symm, ih hclosing.2 hstop.2 hlive]
    rfl

/-- A link that opens: where it is, what its end is like, and what comes after. -/
theorem opened_marks {a : α} (h : b.opened (k.marks s (a :: line)) = some content) :
    ∃ after, a :: line = b.text (.link content) ++ after ∧ k.live s b.opening = true ∧
      k.live k.outside b.opening = true ∧
      k.live (k.run k.outside content) b.closing = true ∧ k.live k.outside b.closing = true ∧
      ∀ after', b.findClose (k.marks k.outside (content ++ b.closing :: b.closing :: after')) =
        some content := by
  obtain ⟨hfirst, hhead, hclose⟩ := opened_eq_some h
  obtain ⟨rfl, hlive⟩ := Prod.mk.inj hfirst
  rw [k.step_live _ _ hlive] at hhead hclose
  obtain ⟨hline, hagain⟩ := head?_marks.mp hhead
  obtain ⟨more, rfl⟩ := List.head?_eq_some_iff.mp hline
  rw [marks, List.tail_cons, k.step_live _ _ hagain] at hclose
  obtain ⟨after, rfl, hshut, hshut', hstable⟩ := findClose_marks hclose
  exact ⟨after, by simp [text], hlive, hagain, hshut, hshut', hstable⟩

/-- Such a link is read as itself, and reading goes on outside. -/
theorem pieces_link_marks (hlive : k.live s b.opening = true)
    (hagain : k.live k.outside b.opening = true)
    (hshut : k.live (k.run k.outside content) b.closing = true)
    (hshut' : k.live k.outside b.closing = true)
    (hclose : b.findClose (k.marks k.outside (content ++ b.closing :: b.closing :: after)) =
      some content) :
    b.pieces 0 (k.marks s (b.text (.link content) ++ after)) =
      .link content :: b.pieces 0 (k.marks k.outside after) := by
  have hmarks : k.marks s (b.text (.link content) ++ after) =
      (b.opening, true) :: (b.opening, true) ::
        k.marks k.outside (content ++ b.closing :: b.closing :: after) := by
    simp only [text, List.cons_append, List.append_assoc, List.nil_append, marks, hlive, hagain,
      k.step_live _ _ hlive, k.step_live _ _ hagain]
  have hopened : b.opened (k.marks s (b.text (.link content) ++ after)) = some content := by
    rw [hmarks, opened, if_pos ⟨rfl, rfl, rfl⟩, List.tail_cons, hclose]
  have hafter : (k.marks k.outside (content ++ b.closing :: b.closing :: after)).drop
      (content.length + 2) = k.marks k.outside after := by
    rw [marks_append, List.drop_append, length_marks,
      List.drop_of_length_le (by rw [length_marks]; omega)]
    simp only [marks, hshut, k.step_live _ _ hshut, k.step_live _ _ hshut', List.nil_append,
      show content.length + 2 - content.length = 2 by omega]
    rfl
  rw [hmarks] at hopened ⊢
  rw [pieces_link hopened, List.drop_succ_cons, hafter]

/-- **A line whose links are given other safe contents is read as the links that were meant.** -/
theorem pieces_rewrite (hf : ∀ inner, f inner = inner ∨ k.Safe b (f inner))
    (hstop : b.stop ∉ line) :
    b.pieces 0 (k.marks s (b.write ((b.pieces 0 (k.marks s line)).map (Piece.map f)))) =
      (b.pieces 0 (k.marks s line)).map (Piece.map f) := by
  induction hn : line.length using Nat.strongRecOn generalizing line s with
  | ind n ih =>
    cases line with
    | nil => rfl
    | cons a rest =>
      cases hopened : b.opened (k.marks s (a :: rest)) with
      | some content =>
        obtain ⟨after, hline, hlive, hagain, hshut, hshut', hstable⟩ := opened_marks hopened
        have hafter : b.stop ∉ after := fun hmem => hstop (hline ▸ List.mem_append_right _ hmem)
        have hlength : after.length < n := by
          rw [← hn, hline, List.length_append, text, List.length_cons]
          omega
        rw [hline, pieces_link_marks hlive hagain hshut hshut' (hstable after), List.map_cons,
          write_cons, Piece.map]
        have hclose (after' : List α) :
            b.findClose (k.marks k.outside (f content ++ b.closing :: b.closing :: after')) =
              some (f content) ∧ k.live (k.run k.outside (f content)) b.closing = true := by
          rcases hf content with hsame | hsafe
          · rw [hsame]
            exact ⟨hstable after', hshut⟩
          · exact ⟨findClose_safe hsafe.closing_notMem hsafe.stop_notMem hsafe.closes hshut' after',
              hsafe.closes⟩
        rw [pieces_link_marks hlive hagain (hclose []).2 hshut' (hclose _).1,
          ih _ hlength hafter rfl]
      | none =>
        have hrest : b.stop ∉ rest := fun hmem => hstop (List.mem_cons_of_mem _ hmem)
        have hsymbol : b.pieces 0 (k.marks s (a :: rest)) =
            .symbol a :: b.pieces 0 (k.marks (k.step s a) rest) := pieces_symbol hopened
        have ih' := @ih rest.length (by simp [← hn]) (k.step s a) rest hrest rfl
        rw [hsymbol, List.map_cons, write_cons, Piece.map, text, List.cons_append,
          List.nil_append]
        -- what is written after the symbol begins as the line did, so it opens nothing either
        have hnone : b.opened (k.marks s (a ::
            b.write ((b.pieces 0 (k.marks (k.step s a) rest)).map (Piece.map f)))) = none := by
          by_contra hsome
          obtain ⟨content, hcontent⟩ := Option.ne_none_iff_exists'.mp hsome
          obtain ⟨hfirst, hhead, -⟩ := opened_eq_some hcontent
          obtain ⟨hnext, hlive⟩ := head?_marks.mp hhead
          rw [head?_write, map_fst_marks] at hnext
          obtain ⟨more, rfl⟩ := List.head?_eq_some_iff.mp hnext
          have hunclosed : b.findClose (k.marks (k.step (k.step s a) b.opening) more) = none := by
            rw [marks, marks, opened, if_pos ⟨congrArg Prod.fst hfirst,
              congrArg Prod.snd hfirst, by rw [List.head?_cons, hlive]⟩] at hopened
            exact hopened
          have hmore : b.stop ∉ (k.marks (k.step (k.step s a) b.opening) more).map Prod.fst := by
            rw [map_fst_marks]
            exact fun hmem => hrest (List.mem_cons_of_mem _ hmem)
          have hsame : b.write ((b.pieces 0 (k.marks (k.step s a) (b.opening :: more))).map
              (Piece.map f)) = b.opening :: more := by
            rw [marks, pieces_unclosed hmore hunclosed, map_symbols, write_symbols, List.map_cons,
              map_fst_marks]
          rw [hsame] at hcontent
          rw [hopened] at hcontent
          cases hcontent
        rw [marks, pieces_symbol hnone, ih']

/-- The contents of a link keep its end live. -/
theorem closes_of_mem_pieces (hmem : .link content ∈ b.pieces 0 (k.marks s line)) :
    k.live (k.run k.outside content) b.closing = true := by
  induction hn : line.length using Nat.strongRecOn generalizing line s with
  | ind n ih =>
    cases line with
    | nil => cases hmem
    | cons a rest =>
      cases hopened : b.opened (k.marks s (a :: rest)) with
      | none =>
        rw [marks, pieces_symbol hopened] at hmem
        rcases List.mem_cons.mp hmem with heq | hmem
        · cases heq
        · exact ih rest.length (by simp [← hn]) hmem rfl
      | some content' =>
        obtain ⟨after, hline, hlive, hagain, hshut, hshut', hstable⟩ := opened_marks hopened
        rw [hline, pieces_link_marks hlive hagain hshut hshut' (hstable after)] at hmem
        rcases List.mem_cons.mp hmem with heq | hmem
        · cases heq
          exact hshut
        · refine ih after.length ?_ hmem rfl
          rw [← hn, hline, List.length_append, text, List.length_cons]
          omega

end Marker

end Brackets

end Softfig.Lib
