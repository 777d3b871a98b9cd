import Amaterasu.Lib.Run
import Amaterasu.Allocator.Conservation
import Amaterasu.Allocator.Requests
import Amaterasu.Fs.Mounting
import Amaterasu.Shell.Editor
import Amaterasu.Shell.Screen
import Amaterasu.Shell.History
import Amaterasu.Shell.WorkingDir
import Amaterasu.Shell.Printing
import Amaterasu.Shell.Quotes
import Amaterasu.Shell.Split
import Amaterasu.Shell.Switches
import Amaterasu.Shell.Tokens
import Amaterasu.Shell.Suggest
import Amaterasu.Shell.Findings
import Amaterasu.Shell.Browsing
import Amaterasu.Shell.Wrapping
import Amaterasu.Acpi.Bounds
import Amaterasu.Acpi.Redirection
import Amaterasu.Keyboard.Ring
import Amaterasu.Keyboard.Ps2
import Amaterasu.Keyboard.Typing
import Amaterasu.Keyboard.Rollover
import Amaterasu.Keyboard.Modifiers
import Amaterasu.Xhci.TransferRing
import Amaterasu.Xhci.Waiters
import Amaterasu.Xhci.HidEndpoint
import Amaterasu.Xhci.EventRing
import Amaterasu.Xhci.Overrun
import Amaterasu.Xhci.BootKeyboard
import Amaterasu.Xhci.Boundaries
import Amaterasu.Framebuffer.Refinement
import Amaterasu.Interrupts.Handlers
import Amaterasu.Interrupts.Terminal
import Amaterasu.Framebuffer.Display
import Amaterasu.Shell.Reading
import Amaterasu.Shell.Filters
import Amaterasu.Xhci.PortReset
import Amaterasu.Xhci.StartUp
import Amaterasu.Xhci.Waits
import Amaterasu.Hal.Serial
import Amaterasu.Hal.Ps2Init
import Amaterasu.Hal.Pci
import Amaterasu.Shell.Sequencing
import Amaterasu.Allocator.Region
import Amaterasu.Hal.Calibration
import Amaterasu.Xhci.ExtendedCaps
import Amaterasu.Xhci.Contexts
import Amaterasu.Shell.Exports
import Amaterasu.Hal.Cpu
