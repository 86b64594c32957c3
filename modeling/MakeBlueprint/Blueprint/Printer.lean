import MakeBlueprint.Blueprint.File

/-!
# Printing blueprint files

Definitions are printed in their order, and comments by line in between: a comment goes before a
definition on the same line, and inside a module when its line is inside.

* `quote` writes a string; quotes, backslashes and line feeds are escaped.
* `Value.print`: a list of two items or more, and every map that is not empty, takes a line for
  each element.
* `File.arrange` gives every comment its place and `File.print` writes the file.
-/

namespace MakeBlueprint.Blueprint

/-- A string between quotes. -/
def quote (t : Text) : Text :=
  ['"'] ++ t.flatMap (fun c =>
    if c = '"' then ['\\', '"'] else if c = '\\' then ['\\', '\\']
    else if c = '\n' then ['\\', 'n'] else [c]) ++ ['"']

/-- The blanks in front of a line at a depth. -/
def indentation (depth : Nat) : Text := List.replicate (4 * depth) ' '

/-! ## Values -/

mutual

/-- A value whose line stands at a depth. -/
def Value.print (depth : Nat) : Value → Text
  | .string text => quote text
  | .bool true => "true"
  | .bool false => "false"
  | .var name _ => name
  | .binary operator left right _ =>
    left.print depth ++ [' ', operator, ' '] ++ right.print depth
  | .list [] => ['[', ']']
  | .list [item] => ['['] ++ item.print depth ++ [']']
  | .list items => ['[', '\n'] ++ Value.printItems (depth + 1) items ++ indentation depth ++ [']']
  | .map [] => ['{', '}']
  | .map properties =>
    ['{', '\n'] ++ Property.printAll (depth + 1) properties ++ indentation depth ++ ['}']

/-- List items, each on its line. -/
def Value.printItems (depth : Nat) : List Value → Text
  | [] => []
  | item :: items =>
    indentation depth ++ item.print depth ++ [',', '\n'] ++ Value.printItems depth items

/-- A property on its line. -/
def Property.print (depth : Nat) : Property → Text
  | ⟨name, value, _⟩ => indentation depth ++ name ++ [':', ' '] ++ value.print depth ++ [',', '\n']

/-- Properties, each on its line. -/
def Property.printAll (depth : Nat) : List Property → Text
  | [] => []
  | p :: ps => p.print depth ++ Property.printAll depth ps

end

/-- A list of one item stands on one line. -/
theorem Value.print_list_singleton (depth : Nat) (item : Value) (s : Text) :
    (Value.list [item]).print depth ++ s = '[' :: (item.print depth ++ ']' :: s) := by
  simp [Value.print]

/-! ## Definitions and comments -/

/-- The lines of a comment at a depth. -/
def Comment.print (depth : Nat) (c : Comment) : Text :=
  c.lines.flatMap fun line => indentation depth ++ line ++ ['\n']

/-- The properties of a module with comments, each before the first property that does not stand
above it. -/
def printWithComments : List Property → List Comment → Text
  | [], comments => comments.flatMap (Comment.print 1)
  | p :: ps, comments =>
    let above := fun c : Comment => decide (c.line ≤ p.line)
    (comments.takeWhile above).flatMap (Comment.print 1) ++ p.print 1
      ++ printWithComments ps (comments.dropWhile above)

/-- A module with the comments inside it. -/
def Module.print (m : Module) (comments : List Comment) : Text :=
  m.moduleType ++ [' ', '{', '\n'] ++ printWithComments m.properties comments ++ ['}', '\n']

/-- An assignment. -/
def Assignment.print (a : Assignment) : Text :=
  a.name ++ [' '] ++ a.assigner.text ++ [' '] ++ a.value.print 0 ++ ['\n']

/-! ## Files -/

/-- What a file is printed from: a comment, an assignment, or a module with its comments. -/
inductive Item where
  | comment (c : Comment)
  | assignment (a : Assignment)
  | module (m : Module) (comments : List Comment)

namespace Item

/-- The first line of an item. -/
def line : Item → Nat
  | .comment c => c.line
  | .assignment a => a.line
  | .module m _ => m.line

/-- The last line of an item. -/
def endLine : Item → Nat
  | .comment c => c.line
  | .assignment a => a.line
  | .module m _ => m.endLine

/-- The text of an item. -/
def print : Item → Text
  | .comment c => c.print 0
  | .assignment a => a.print
  | .module m comments => m.print comments

/-- Whether an empty line stands between two items: after a module, between an assignment and a
module, and where lines are left out. -/
def isSeparated (before after : Item) : Bool :=
  match before, after with
  | .module .., _ => true
  | .assignment _, .module .. => true
  | _, _ => before.endLine + 1 < after.line

/-- The text of items behind a given one. -/
def printAfter (before : Item) : List Item → Text
  | [] => []
  | item :: items =>
    (if before.isSeparated item then ['\n'] else []) ++ item.print ++ printAfter item items

/-- The text of items. -/
def printAll : List Item → Text
  | [] => []
  | item :: items => item.print ++ printAfter item items

end Item

/-- Puts comments that are in order of their lines between and into definitions. -/
def arrange : List Definition → List Comment → List Item
  | [], comments => comments.map .comment
  | d :: ds, comments =>
    let above := fun c : Comment => decide (c.line ≤ d.line)
    let rest := comments.dropWhile above
    (comments.takeWhile above).map .comment ++
      match d with
      | .assignment a => .assignment a :: arrange ds rest
      | .module m =>
        let inside := fun c : Comment => decide (c.line < m.endLine)
        .module m (rest.takeWhile inside) :: arrange ds (rest.dropWhile inside)

/-- The comments of a file by line; comments of one line keep their order. -/
def File.sortedComments (f : File) : List Comment :=
  f.comments.mergeSort fun a b => decide (a.line ≤ b.line)

/-- The text of a file. -/
def File.print (f : File) : Text := Item.printAll (arrange f.definitions f.sortedComments)

end MakeBlueprint.Blueprint
