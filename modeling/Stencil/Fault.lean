import Stencil.Argument
import Stencil.Span

/-!
# Faults of templates

What can be wrong with a template, with the span of the source that it concerns.  A cause says what
is wrong; its kind and its message are read off it.
-/

namespace Stencil

/-- The kinds of faults. -/
inductive FaultKind where
  | grammar
  | unbalanced
  | scopeDepth
  | unknownHelper
  | unknownPartial
deriving DecidableEq

/-- What is wrong with a template. -/
inductive Cause where
  | unclosed (opener : Bytes)
  | emptyExpression
  | badBlockName (name : Bytes)
  | missingHelperName
  | badHelperName (name : Bytes)
  | missingPartialName
  | badPartialName (name : Bytes)
  | literalPartialName (token : Bytes)
  | elseWithArguments
  | lateContext (partialName : Bytes)
  | literalContext (token : Bytes)
  | argument (cause : ArgumentError)
  | unknownHelper (name : Bytes)
  | unknownPartial (name : Bytes)
  | strayElse
  | strayClose (name : Bytes)
  | secondElse (block : Bytes) (first : Nat)
  | unterminated (block : Bytes)
  | wrongClose (name block : Bytes)
  | climbsTooFar (hops depth : Nat)
deriving DecidableEq

namespace Cause

/-- The kind of a cause. -/
def kind : Cause → FaultKind
  | unknownHelper _ => .unknownHelper
  | unknownPartial _ => .unknownPartial
  | strayElse | strayClose _ | secondElse .. | unterminated _ | wrongClose .. => .unbalanced
  | climbsTooFar .. => .scopeDepth
  | _ => .grammar

/-- A name between double braces, behind a sign. -/
def braced (sign : String) (name : Bytes) : Bytes :=
  utf8 "\x7b\x7b" ++ utf8 sign ++ name ++ utf8 "\x7d\x7d"

/-- The text of a cause. -/
def message : Cause → Bytes
  | unclosed opener => utf8 "unclosed " ++ opener
  | emptyExpression => utf8 "empty expression"
  | badBlockName name => utf8 "bad block name " ++ Text.quote name
  | missingHelperName => utf8 "missing helper name"
  | badHelperName name => utf8 "bad helper name " ++ Text.quote name
  | missingPartialName => utf8 "missing partial name"
  | badPartialName name => utf8 "bad partial name " ++ Text.quote name
  | literalPartialName token => utf8 "bad partial name " ++ token
  | elseWithArguments => braced "" (utf8 "else") ++ utf8 " takes no arguments"
  | lateContext name =>
    utf8 "partial " ++ Text.quote name ++ utf8 " takes one context argument before its parameters"
  | literalContext token => utf8 "partial context must be a path, got " ++ token
  | argument cause => utf8 "syntax error: " ++ cause.message
  | unknownHelper name => utf8 "unknown helper " ++ Text.quote name
  | unknownPartial name => utf8 "unknown partial " ++ Text.quote name
  | strayElse => braced "" (utf8 "else") ++ utf8 " outside a block"
  | strayClose name => braced "/" name ++ utf8 " closes no block"
  | secondElse block first =>
    utf8 "second " ++ braced "" (utf8 "else") ++ utf8 " in " ++ braced "#" block ++
      utf8 ", first at " ++ Bytes.decimal first
  | unterminated block => utf8 "unterminated " ++ braced "#" block
  | wrongClose name block => braced "/" name ++ utf8 " closes " ++ braced "#" block
  | climbsTooFar hops depth =>
    utf8 "parent traversal exceeds block depth: path climbs " ++ Bytes.decimal hops ++
      utf8 " scopes but only " ++ Bytes.decimal depth ++ utf8 " blocks enclose it"

end Cause

/-- A cause and the part of the source that it concerns. -/
structure Fault where
  cause : Cause
  span : Span
deriving DecidableEq

end Stencil
