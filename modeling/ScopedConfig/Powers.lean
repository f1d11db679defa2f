/-!
# Powers

Powers of numbers are those of the core library everywhere, even where a library with powers of its
own is at hand.
-/

namespace ScopedConfig

attribute [default_instance (20000), instance (20000)] instPowNat

end ScopedConfig
