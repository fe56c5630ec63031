import InteriorPoint.Decimal.Reader
import InteriorPoint.Kkt.Settings

/-!
# Settings from the environment

The default settings of the program can be overridden by environment variables, so that a run can
be tuned from outside. A variable whose bytes are not valid UTF-8 counts as not set, and so does
a number that cannot be read.
-/

namespace InteriorPoint

/-- An environment: the bytes that a variable is set to, if it is set. -/
abbrev Environment := String → Option ByteArray

namespace Environment

/-- The text of a variable, if it is set to text. -/
def text? (env : Environment) (name : String) : Option String :=
  (env name).bind String.fromUTF8?

/-- A text that switches the inertia check off: a zero, or the word `false` in any case. Outside
ASCII no letter has one of the letters of that word as its lower-case form. -/
def switchesOff (text : String) : Bool :=
  text == "0" || String.ofList (text.toList.map Char.toLower) == "false"

/-- **The settings under an environment.** The pivot tolerance cannot be overridden. -/
def settings (env : Environment) : Settings Float where
  regularization := ((env.text? "CONVEX_KKT_STATIC_REG").bind Decimal.readFloat?).getD 0.0
  refinements :=
    ((env.text? "CONVEX_KKT_REFINE_ITERS").bind (Decimal.readWhole? UInt64.size)).getD 2
  checkInertia := ((env.text? "CONVEX_KKT_CHECK_INERTIA").map fun s => !switchesOff s).getD true
  verbose := ((env.text? "CONVEX_VERBOSE").map fun s => s == "1").getD false

end Environment

end InteriorPoint
