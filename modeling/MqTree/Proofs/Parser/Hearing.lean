import Mathlib.Data.List.Nodup
import MqTree.Proofs.Lexer.Partition
import MqTree.Proofs.Parser.Derivation

namespace MqTree

/-! The tokens that the parser has in front of it are those that the lexer finds
in the text; so what they tell of newlines before them is true of the leaves of
the tree. -/

def Tree.Joined (t : Tree) (n : Node) : Prop :=
  ∀ front before back, t.rootNode.walk.filter (·.sub.isLeaf) = front ++ before :: n :: back →
    ∀ i : Nat, before.stop ≤ i → i < n.start → t.text[i]? ≠ some Text.newline

namespace Lexer

variable {src : Text}

def whole (src : Text) : List Token := (initial.tokens src (src.size + 1)).dropLast

theorem whole_tiles (src : Text) : Tiles src 0 (initial.tokens src (src.size + 1)) :=
  tokens_tiles (l := initial) (Place.counted_origin src) (Nat.zero_le _) (by omega)

theorem unbroken_behind {front back : List Token} {before token : Token}
    (split : whole src = front ++ before :: token :: back)
    (unbroken : token.newlineBefore = false) {i : Nat} (above : before.stop ≤ i)
    (below : i < token.start) : src[i]? ≠ some Text.newline := by
  have tiles := whole_tiles src
  obtain ⟨init, last, made, _⟩ := @tokens_ends src initial (src.size + 1) (Nat.zero_le _) (by omega)
  rw [whole, made, List.dropLast_concat] at split
  rw [made, split, List.append_assoc, List.cons_append, List.cons_append, List.append_cons] at tiles
  have behind := tiles.behind_of_split rfl
  rw [List.map_append, List.map_singleton, List.getLastD_concat] at behind
  intro found
  have broken := behind.newline.mpr ⟨i, above, below, found⟩
  rw [unbroken] at broken
  contradiction

/-- A token is told from the others by where it starts. -/
theorem eq_of_start_eq {a b : Token} (left : a ∈ whole src) (right : b ∈ whole src)
    (same : a.start = b.start) : a = b := by
  have tiles := whole_tiles src
  have solid := (Partition.of_tiles tiles).solid
  have apart : ((whole src).map Token.start).Nodup := by
    refine List.pairwise_map.mpr
      ((tiles.ordered.sublist (List.dropLast_sublist _)).imp_of_mem ?_)
    intro a b left _ order
    have own := (solid a left).2
    omega
  exact List.inj_on_of_nodup_map apart left right same

end Lexer

namespace Parser

variable {c : Context} {s r q : State} {t : Tree}

theorem filterMap_token? (t : Tree) (ns : List Node) :
    (ns.filter (·.sub.isLeaf)).filterMap t.token? = ns.filterMap t.token? := by
  rw [List.filterMap_filter]
  refine List.filterMap_congr fun n _ => ?_
  cases sub : n.sub <;> simp [Subtree.isLeaf, Tree.token?, sub]

theorem joined_of_token {token : Token} (text : t.text = c.src)
    (tokens : t.rootNode.walk.filterMap t.token? = (Lexer.whole c.src).map Token.unbroken)
    (member : token ∈ Lexer.whole c.src) (unbroken : token.newlineBefore = false) {n : Node}
    (start : n.start = token.start) : t.Joined n := by
  intro front before back leaves i above below
  rw [← filterMap_token?, leaves, List.filterMap_append] at tokens
  have ahead : before ∈ t.rootNode.walk.filter (·.sub.isLeaf) := by
    rw [leaves]
    exact List.mem_append_right _ List.mem_cons_self
  have here : n ∈ t.rootNode.walk.filter (·.sub.isLeaf) := by
    rw [leaves]
    exact List.mem_append_right _ (List.mem_cons_of_mem _ List.mem_cons_self)
  have read {m : Node} (leaf : m.sub.isLeaf = true) :
      ∃ own, t.token? m = some own ∧ own.start = m.start.toNat ∧ own.stop = m.stop.toNat := by
    obtain ⟨sub, start⟩ := m
    cases sub with
    | leaf => exact ⟨_, rfl, rfl, rfl⟩
    | missing | branch => contradiction
  obtain ⟨first, isFirst, _, stop⟩ := read (List.mem_filter.mp ahead).2
  obtain ⟨second, isSecond, starts, _⟩ := read (List.mem_filter.mp here).2
  rw [List.filterMap_cons, List.filterMap_cons, isFirst, isSecond] at tokens
  simp only [] at tokens
  obtain ⟨early, late, split, _, behind⟩ := List.map_eq_append_iff.mp tokens.symm
  obtain ⟨a, rest, rfl, isA, behind⟩ := List.map_eq_cons_iff.mp behind
  obtain ⟨b, others, rfl, isB, _⟩ := List.map_eq_cons_iff.mp behind
  have ends : a.unbroken.stop = first.stop := congrArg Token.stop isA
  have begins : b.unbroken.start = second.start := congrArg Token.start isB
  simp only [Token.unbroken] at ends begins
  have same : b = token := by
    have own : b ∈ Lexer.whole c.src := by
      rw [split]
      exact List.mem_append_right _ (List.mem_cons_of_mem _ List.mem_cons_self)
    exact Lexer.eq_of_start_eq own member (by omega)
  subst same
  rw [text]
  exact Lexer.unbroken_behind split unbroken (by omega) (by omega)

structure Heard (c : Context) (s : State) : Prop extends Faces c s where
  plain : s.token.kind ≠ .comment
  suffix : s.rest c <:+ (Lexer.whole c.src).filter (·.kind != .comment)

theorem Advances.plain (advances : Advances c s r) : r.token.kind ≠ .comment := by
  induction advances with
  | token s plain => exact plain
  | comment s kind rest ih => exact ih

namespace Heard

theorem initial (c : Context) (reuse : ReuseIndex) : Heard c (State.initial c reuse) := by
  have advances := State.initial_advances c reuse
  refine ⟨.initial c reuse, advances.plain, ?_⟩
  rw [advances.rest (Nat.zero_le _)]
  exact List.suffix_rfl

theorem moved (heard : Heard c s) : Heard c (s.moved c) := by
  have advances := State.moved_advances heard.inside
  refine ⟨heard.toFaces.moved, advances.plain, ?_⟩
  cases ended : s.token.isEnd with
  | false =>
      have suffix := heard.suffix
      rw [heard.toFaces.rest ended] at suffix
      exact (List.suffix_cons _ _).trans suffix
  | true =>
      -- Behind the end there is nothing but the end.
      have last := heard.ended ended
      have order := heard.start_le_stop
      have offset := heard.offset
      have inside := heard.inside
      have opening : s.lexer.opening c.src = c.src.size :=
        Nat.le_antisymm (Lexer.opening_le inside)
          (Nat.le_trans (by omega) (Lexer.offset_le_opening c.src s.lexer))
      have atEnd := (Lexer.next_isEnd_iff inside).mpr opening
      have nothing : s.lexer.rest c.src = [] := by
        rw [Lexer.rest, Lexer.dropLast_tokens inside, if_pos atEnd]
        rfl
      have rest : (s.moved c).rest c = [] := (advances.rest inside).trans nothing
      rw [rest]
      exact List.nil_suffix

theorem returns (heard : Heard c s) (returns : Returns s r) : Heard c r := by
  refine ⟨heard.toFaces.returns returns, ?_, ?_⟩
  · obtain ⟨_, _, rfl⟩ := returns
    exact heard.plain
  · rw [returns.rest]
    exact heard.suffix

theorem flush (heard : Heard c s) : Heard c { s with pending := [] } :=
  ⟨heard.toFaces.flush, heard.plain, heard.suffix⟩

theorem mem (heard : Heard c s) (more : s.token.isEnd = false) : s.token ∈ Lexer.whole c.src := by
  have suffix := heard.suffix
  rw [State.rest, more, if_neg Bool.false_ne_true] at suffix
  exact List.mem_of_mem_filter (suffix.subset List.mem_cons_self)

theorem symbol_ne (heard : Heard c s) : s.token.symbol ≠ commentSymbol := by
  have spells := heard.spells
  have plain := heard.plain
  unfold Token.symbol
  cases kind : s.token.kind
  all_goals rw [kind] at spells plain
  case keyword => exact (by decide : ∀ word ∈ keywords, word ≠ commentSymbol) _ spells
  case punctuation => exact (by decide : ∀ mark ∈ punctuationMarks, mark ≠ commentSymbol) _ spells
  case comment => exact absurd rfl plain
  all_goals
    simp only []
    decide

end Heard

theorem Heard.skipTo {e : Expr} {error : Item} (heard : Heard c s)
    (found : skipTo c e s = (some error, r)) : Heard c r := by
  obtain ⟨_, _, _, _, _, passes, _, back⟩ := passes_of_skipTo found
  exact (passes.keeps heard moved).returns back

theorem Heard.skipStatement {item : Expr} {closers : List String} {error : Item}
    (heard : Heard c s) (skip : skipStatement c item closers s = (error, r)) : Heard c r := by
  obtain ⟨_, _, _, passes, _, back⟩ := passes_of_skipStatement skip
  exact (passes.keeps heard.moved moved).returns back

theorem Yields.heard {job : Job} {items : List Item} (yields : Yields c job s items r)
    (heard : Heard c s) : Heard c r :=
  yields.keeps heard Heard.moved Heard.returns Heard.flush

/-- What starts at a token that no newline precedes is joined to the leaf before
it in the tree that was parsed. -/
theorem Parsed.joined {o : Outline} {items : List Item} {last : State}
    (parsed : Parsed c o .empty items last) (text : t.text = c.src)
    (root : t.root = Parsed.root c items last) (heard : Heard c s)
    (more : s.token.isEnd = false) (unbroken : s.token.newlineBefore = false) {n : Node}
    (start : n.start = s.token.start) : t.Joined n :=
  joined_of_token text (parsed.tokens text root) (heard.mem more) unbroken start

end Parser

end MqTree
