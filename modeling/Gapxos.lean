import Gapxos.Pmm.DirectMap
import Gapxos.Pmm.Linear
import Gapxos.Pmm.Reserved
import Gapxos.Pmm.Capacity
import Gapxos.Vmm.Tiled
import Gapxos.Vmm.Exhausted
import Gapxos.Heap.Backed
import Gapxos.Heap.Serve
import Gapxos.Heap.GivenBack
import Gapxos.Loader.Image
import Gapxos.Loader.Origin
import Gapxos.Boot.Rsdp
import Gapxos.Boot.Bounds
import Gapxos.Apic.Nmi
import Gapxos.Apic.Stub
import Gapxos.Gdt.Entries
import Gapxos.Gdt.Reload
import Gapxos.Vmm.NodeFree
import Gapxos.Vmm.Owners
import Gapxos.Vmm.Tlb
import Gapxos.Vmm.Remove
import Gapxos.Vmm.Request
import Gapxos.Loader.Accesses
import Gapxos.Acpi.Window
import Gapxos.Apic.MadtBounds
import Gapxos.Gdt.Decode
import Gapxos.Boot.PageArea
import Gapxos.Pmm.Stack
import Gapxos.Apic.Addresses
import Gapxos.Display
import Gapxos.Util.Utoa
import Gapxos.Vmm.Pointers
import Gapxos.Vmm.Refines
import Gapxos.Vmm.Mirrors
import Gapxos.Vmm.Roles
import Gapxos.Vmm.Isolation
import Gapxos.Vmm.Cores
import Gapxos.Vmm.CoreFrames
import Gapxos.Boot.KernelMain
import Gapxos.Pmm.Uses
import Gapxos.Loader.Reach
import Gapxos.Loader.LongMode
