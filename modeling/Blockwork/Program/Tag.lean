/-! # Tags that have a meaning

* `Tag` are the tags of the blocks that can be read into a program.
* `Tag.ofName?` finds the tag with a name.
-/

namespace Blockwork

set_option autoImplicit false

inductive Tag where
  | assign
  | choose
  | repeat
  | loop
  | count
  | forEach
  | flow
  | wait
  | print
  | var
  | number
  | boolean
  | text
  | arithmetic
  | compare
  | logic
  | negate
  | function
  | list
  | length
  | join
deriving DecidableEq

namespace Tag

def all : List Tag :=
  [assign, choose, .repeat, loop, count, forEach, flow, wait, print, var, number, boolean, text,
   arithmetic, compare, logic, negate, function, list, length, join]

def name : Tag → String
  | assign => "variables_set"
  | choose => "controls_if"
  | .repeat => "controls_repeat_ext"
  | loop => "controls_whileUntil"
  | count => "controls_for"
  | forEach => "controls_forEach"
  | flow => "controls_flow_statements"
  | wait => "robControls_wait_time"
  | print => "text_print"
  | var => "variables_get"
  | number => "math_number"
  | boolean => "logic_boolean"
  | text => "text"
  | arithmetic => "math_arithmetic"
  | compare => "logic_compare"
  | logic => "logic_operation"
  | negate => "logic_negate"
  | function => "math_single"
  | list => "lists_create_with"
  | length => "lists_length"
  | join => "text_join"

def ofName? (name : String) : Option Tag :=
  all.find? fun tag => tag.name == name

end Tag

end Blockwork
