import UsbArmory.Library.Registers

/-!
# Computations whose operations all meet a condition

However a computation ends, every operation on the way is of the kind that the
condition describes. A computation may also be silent, or of no effect but a
value.
-/

set_option autoImplicit false

namespace UsbArmory.Library.Confinement
open UsbArmory.Library.Binary UsbArmory.Library.Trace UsbArmory.Library.Registers

variable {op ε α β : Type} {P Q : op → Prop} {x : Traced op ε α} {f : α → Traced op ε β}

def Confined (P : op → Prop) (x : Traced op ε α) : Prop := Does x fun ops _ => ∀ a ∈ ops, P a

theorem Confined.mono (h : Confined P x) (hpq : ∀ a, P a → Q a) : Confined Q x :=
  h.imp fun _ _ hops a ha => hpq a (hops a ha)

section Bus
variable {ρ ν : Type} {P : Access ρ ν → Prop}

end Bus

end UsbArmory.Library.Confinement
