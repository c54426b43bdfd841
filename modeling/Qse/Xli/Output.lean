import Qse.Xli.Model

/-!
# Output streams

The streams that the writers of `lib/xli` share, `qse_xli_openwstream` and
`qse_xli_closeactivewstream` of `write.c` among them. The handler takes whatever it is
given, so the buffer of a stream is not told from what was flushed.
-/

namespace Qse.Xli

/-- `qse_xli_io_arg_t` of a stream that is written, with its `arg_data_t`. The top level
stream has no name. -/
structure WioArg where
  name : Option WString
  text : List ℕ
  orgDepth : ℤ
deriving DecidableEq

/-- `xli->wio`, the open streams from the active one down and those that were closed. -/
structure Wio where
  inp : List WioArg
  closed : List WioArg
deriving DecidableEq

/-- `write_to_current_stream` without escaping -/
def Wio.write (wio : Wio) (text : List ℕ) : Option Wio :=
  match wio.inp with
  | [] => none
  | arg :: prev => some { wio with inp := { arg with text := arg.text ++ text } :: prev }

def Wio.openwstream (wio : Wio) (name : Option WString) (oldDepth : ℤ) : Wio :=
  { wio with inp := ⟨name, [], oldDepth⟩ :: wio.inp }

/-- `qse_xli_closeactivewstream`. The second part is the depth before the stream was
opened. -/
def Wio.closeactivewstream (wio : Wio) : Option (Wio × ℤ) :=
  match wio.inp with
  | [] => none
  | arg :: prev => some (⟨prev, wio.closed ++ [arg]⟩, arg.orgDepth)

def Wio.init : Wio := ⟨[⟨none, [], 0⟩], []⟩

def Wio.closeAll (wio : Wio) : List WioArg := wio.closed ++ wio.inp

/-- `write_indentation`. A negative depth is converted to `qse_size_t` for the comparison
with the length of the table. -/
def tabs (depth : ℤ) : List ℕ := List.replicate (if 0 ≤ depth then depth.toNat else 16) (wt '\t')

@[simp] theorem Wio.write_mk (name : Option WString) (text s : List ℕ) (orgDepth : ℤ)
    (prev closed : List WioArg) :
    Wio.write ⟨⟨name, text, orgDepth⟩ :: prev, closed⟩ s =
      some ⟨⟨name, text ++ s, orgDepth⟩ :: prev, closed⟩ := rfl

end Qse.Xli
